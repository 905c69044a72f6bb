import Swim.Names
import Swim.Protocol
import Swim.Address

/-!
# Swim.Wire

The members of a cluster as processes that exchange bytes: the event loop of each, the tasks of its
`UdpTransport`, and what is under way between them.

* `Host` — an event loop, the `_do_send` tasks whose packet is being packed, the `_tcp_send` tasks
  that are connecting, and the receiving protocols.
* `Link` — a connection: the bytes its sender wrote that have not arrived.
* `next` — one event. Datagrams are lost, duplicated and reordered; a connection may fail, be cut,
  or bring its bytes in any pieces; others may send anything to anybody.
* `Setup` — what the members are given: the keyed digest, `pickle`, the address parsers, and the
  network's own idea of who listens at an address.

All members share the secret, the hash and the version. `sendto` never fails: an error is a loss.
-/

namespace Swim

open Transition

structure Setup where
  names : Finset Name
  hmac : Bytes → Bytes → String → Bytes
  dumps : Packet → Bytes
  loads : Bytes → Except PyError (Option Packet)
  udpPack : UdpPack
  digitLimit : Option Nat
  mtuSize : Name → Nat
  addressParser : Name → AddressParser Address
  route : Address → Option Name

namespace Setup

variable (S : Setup)

def unpack (data : Bytes) : Except PyError (Option Packet) := S.udpPack.unpack S.hmac S.loads data

/-- `_do_send` up to `sendto` or the task that connects: what is sent, and where to. -/
def doSend (n member : Name) (packet : Packet) (salt : Bytes) :
    Except PyError (Address × Sent) := do
  let sent ← S.udpPack.doSend S.hmac S.dumps (S.mtuSize n) packet salt
  let address ← (S.addressParser n).parse S.digitLimit member
  return (address, sent)

end Setup

structure Host where
  loop : Loop
  sending : List (Name × Packet)
  connecting : List (Address × Bytes)
  receiver : Receiver

structure Link where
  host : Name
  rest : Bytes

structure Wire where
  hosts : Name → Option Host
  datagrams : List (Address × Bytes)
  links : Connection → Option Link
  nextConnection : Connection

def Host.start (config : Config) (env : Env) : Host where
  loop := .start config env
  sending := []
  connecting := []
  receiver := ⟨fun _ => [], [], []⟩

namespace Wire

/-- `turn` is a turn that handles no packet, `handle` takes one off `recv_queue`, and `take` one
off `send_queue`. `sent` is the rest of `_do_send` once the packet is packed, and `unpacked` the
rest of `handle_packet`. `inject` and `dial` are datagrams and connections of others. -/
inductive Event where
  | turn (n : Name) (turn : Turn)
  | handle (n : Name)
  | take (n : Name)
  | sent (n member : Name) (packet : Packet) (salt : Bytes)
  | connect (n : Name) (address : Address) (data : Bytes)
  | refuse (n : Name) (address : Address) (data : Bytes)
  | deliver (address : Address) (data : Bytes)
  | lose (address : Address) (data : Bytes)
  | duplicate (address : Address) (data : Bytes)
  | inject (address : Address) (data : Bytes)
  | dial (n : Name) (data : Bytes)
  | chunk (connection : Connection) (size : Nat)
  | close (connection : Connection) (error : Bool)
  | unpacked (n : Name) (data : Bytes)
  | restart (n : Name) (config : Config)

def set (W : Wire) (n : Name) (h : Host) : Wire :=
  { W with hosts := Function.update W.hosts n (some h) }

/-- What is left to arrive by a connection, if it is still open. -/
def relink (W : Wire) (connection : Connection) (link : Option Link) : Wire :=
  { W with links := Function.update W.links connection link }

/-- A new connection to host `n`, with all that its sender writes. -/
def accept (W : Wire) (n : Name) (data : Bytes) : Wire :=
  { W.relink W.nextConnection (some ⟨n, data⟩) with nextConnection := W.nextConnection + 1 }

variable (S : Setup)

def receive (W : Wire) (n : Name) (event : Receiver.Event) : Option Wire :=
  (W.hosts n).bind fun h =>
    (Receiver.next S.unpack h.receiver event).map fun receiver => W.set n { h with receiver }

def sendTo (W : Wire) (n : Name) (h : Host) : Except PyError (Address × Sent) → Wire
  | .error _ => W.set n h
  | .ok (address, .datagram data) =>
    { W.set n h with datagrams := W.datagrams ++ [(address, data)] }
  | .ok (address, .stream data) =>
    W.set n { h with connecting := h.connecting ++ [(address, data)] }

def next (W : Wire) (l : Event × Env) : Option Wire :=
  match l.1 with
  | .turn _ (.other (.receive _)) => none
  | .turn n turn => (W.hosts n).bind fun h =>
    (h.loop.next (turn, l.2)).map fun loop => W.set n { h with loop }
  | .handle n => (W.hosts n).bind fun h =>
    match h.receiver.recvQueue with
    | [] => none
    | packet :: recvQueue => (h.loop.next (.other (.receive packet), l.2)).map fun loop =>
      W.set n { h with loop, receiver := { h.receiver with recvQueue } }
  | .take n => (W.hosts n).bind fun h =>
    match h.loop.worker.sendQueue with
    | [] => none
    | (member, packet) :: sendQueue => some (W.set n { h with
        loop := { h.loop with worker := { h.loop.worker with sendQueue } }
        sending := h.sending ++ [(member, packet)] })
  | .sent n member packet salt => (W.hosts n).bind fun h =>
    if h.sending.contains (member, packet) then
      some (W.sendTo n { h with sending := h.sending.erase (member, packet) }
        (S.doSend n member packet salt))
    else none
  | .connect n address data => (W.hosts n).bind fun h =>
    if (address, data) ∈ h.connecting then
      (S.route address).bind fun k => (W.hosts k).map fun _ =>
        (W.set n { h with connecting := h.connecting.erase (address, data) }).accept k data
    else none
  | .refuse n address data => (W.hosts n).bind fun h =>
    if (address, data) ∈ h.connecting then
      some (W.set n { h with connecting := h.connecting.erase (address, data) })
    else none
  | .deliver address data =>
    if (address, data) ∈ W.datagrams then
      (S.route address).bind fun k =>
        { W with datagrams := W.datagrams.erase (address, data) }.receive S k
          (.datagramReceived data)
    else none
  | .lose address data =>
    if (address, data) ∈ W.datagrams then
      some { W with datagrams := W.datagrams.erase (address, data) }
    else none
  | .duplicate address data =>
    if (address, data) ∈ W.datagrams then
      some { W with datagrams := W.datagrams ++ [(address, data)] }
    else none
  | .inject address data => some { W with datagrams := W.datagrams ++ [(address, data)] }
  | .dial n data => (W.hosts n).map fun _ => W.accept n data
  | .chunk connection size => (W.links connection).bind fun link =>
    (W.relink connection (some ⟨link.host, link.rest.drop size⟩)).receive S link.host
      (.dataReceived connection (link.rest.take size))
  | .close connection error => (W.links connection).bind fun link =>
    (W.relink connection none).receive S link.host (.connectionLost connection error)
  | .unpacked n data => W.receive S n (.handlePacket data)
  | .restart n config =>
    if config.localName = n then
      (W.hosts n).map fun _ =>
        { W.set n (.start config l.2) with
          links := fun connection => (W.links connection).filter fun link => link.host ≠ n }
    else none

structure Initial (W : Wire) : Prop where
  hosts : ∀ n h, W.hosts n = some h → ∃ config env, config.localName = n ∧
    config.Within (· ∈ S.names) ∧ h = .start config env
  datagrams : W.datagrams = []
  links : ∀ connection, W.links connection = none

end Wire

end Swim
