import Swim.Pack
import Swim.Transition.Run

/-!
# Swim.Protocol

`swimprotocol.udp.send.UdpSend._do_send` and the protocols of `swimprotocol.udp.protocol`: packets
as datagrams, or as all the bytes of a connection.

The receiver has one `UdpProtocol`, and one `TcpProtocol` for each connection, which all put what
they unpack on one queue. `run_subtask` starts a task; the loop goes on with others while the
executor unpacks the data, so `handlePacket` is a step of its own.

* `doSend` — what is sent, and how. Where it is sent to plays no role here.
* `handed` — the data that a sequence of events hands to `handle_packet`.
* `run_due` — over any run, each of these is put on the queue once or is still to be put.
* `received_once` — what `doSend` sent is received as the packet, by either path.
-/

namespace Swim

open Transition

/-- What `_do_send` does with a packet: one `sendto`, or one connection. -/
inductive Sent where
  | datagram (data : Bytes)
  | stream (data : Bytes)
  deriving DecidableEq

def Sent.data : Sent → Bytes
  | datagram data | stream data => data

namespace UdpPack

def doSend (P : UdpPack) (hmac : Bytes → Bytes → String → Bytes) (dumps : Packet → Bytes)
    (mtuSize : Nat) (packet : Packet) (salt : Bytes) : Except PyError Sent := do
  let packetData ← P.pack hmac dumps packet salt
  if packetData.length ≤ mtuSize then return .datagram packetData
  else return .stream packetData

end UdpPack

abbrev Connection := Nat

structure Receiver where
  buf : Connection → Bytes
  /-- The data of the `handle_packet` tasks that are not over. -/
  running : List Bytes
  recvQueue : List Packet

namespace Receiver

variable (unpack : Bytes → Except PyError (Option Packet))

inductive Event where
  | datagramReceived (data : Bytes)
  | dataReceived (connection : Connection) (data : Bytes)
  | connectionLost (connection : Connection) (error : Bool)
  | handlePacket (data : Bytes)
  deriving DecidableEq

def runSubtask (R : Receiver) (data : Bytes) : Receiver :=
  { R with running := R.running ++ [data] }

def dataReceived (R : Receiver) (connection : Connection) (data : Bytes) : Receiver :=
  { R with buf := Function.update R.buf connection (R.buf connection ++ data) }

/-- `error` says whether there was an exception. -/
def connectionLost (R : Receiver) (connection : Connection) (error : Bool) : Receiver :=
  let data := R.buf connection
  let R := { R with buf := Function.update R.buf connection [] }
  if error then R else R.runSubtask data

/-- The packet `handle_packet` puts on the queue, if any; an exception ends only its task. -/
def puts (data : Bytes) : Option Packet :=
  match unpack data with
  | .ok packet => packet
  | .error _ => none

def handlePacket (R : Receiver) (data : Bytes) : Receiver :=
  { R with running := R.running.erase data, recvQueue := R.recvQueue ++ (puts unpack data).toList }

def next (R : Receiver) : Event → Option Receiver
  | .datagramReceived data => some (R.runSubtask data)
  | .dataReceived connection data => some (R.dataReceived connection data)
  | .connectionLost connection error => some (R.connectionLost connection error)
  | .handlePacket data =>
    if data ∈ R.running then some (R.handlePacket unpack data) else none

def due (R : Receiver) : List Packet := R.recvQueue ++ R.running.filterMap (puts unpack)

def handed : (Connection → Bytes) → List Event → List Bytes
  | _, [] => []
  | buf, .datagramReceived data :: ls => data :: handed buf ls
  | buf, .dataReceived connection data :: ls =>
    handed (Function.update buf connection (buf connection ++ data)) ls
  | buf, .connectionLost connection error :: ls =>
    (if error then [] else [buf connection]) ++ handed (Function.update buf connection []) ls
  | buf, .handlePacket _ :: ls => handed buf ls

variable {unpack} {R R' : Receiver} {l : Event} {ls : List Event} {data : Bytes} {c : Connection}

theorem due_runSubtask :
    (R.runSubtask data).due unpack = R.due unpack ++ (puts unpack data).toList := by
  rw [due, runSubtask, List.filterMap_append, ← List.append_assoc]
  cases h : puts unpack data <;> simp [due, h]

theorem due_handlePacket (h : data ∈ R.running) :
    ((R.handlePacket unpack data).due unpack).Perm (R.due unpack) := by
  have hperm := (List.perm_cons_erase h).filterMap (puts unpack)
  rw [due, handlePacket, due, List.append_assoc]
  refine List.Perm.append_left _ ?_
  refine List.Perm.trans ?_ hperm.symm
  cases hp : puts unpack data <;> simp [hp]

/-- **Every run.** What is due at its end is what was due and what the events handed over. -/
theorem run_due (h : run (next unpack) R ls = some R') :
    (R'.due unpack).Perm (R.due unpack ++ (handed R.buf ls).filterMap (puts unpack)) := by
  induction ls generalizing R with
  | nil =>
    cases h
    simp [handed]
  | cons l ls ih =>
    rw [run_cons, Option.bind_eq_some_iff] at h
    obtain ⟨R₁, h₁, hrest⟩ := h
    have hdue := ih hrest
    cases l with
    | datagramReceived data =>
      cases h₁
      rw [due_runSubtask, List.append_assoc] at hdue
      refine hdue.trans (List.Perm.append_left _ ?_)
      show List.Perm _ ((data :: handed R.buf ls).filterMap _)
      cases hp : puts unpack data <;> simp [hp, runSubtask]
    | dataReceived c data =>
      cases h₁
      exact hdue
    | connectionLost c error =>
      cases h₁
      cases error with
      | true => exact hdue
      | false =>
        have hlost : R.connectionLost c false =
            ({ R with buf := Function.update R.buf c [] } : Receiver).runSubtask (R.buf c) := rfl
        rw [hlost, due_runSubtask, List.append_assoc] at hdue
        refine hdue.trans (List.Perm.append_left _ ?_)
        show List.Perm _ ((R.buf c :: handed (Function.update R.buf c []) ls).filterMap _)
        cases hp : puts unpack (R.buf c) <;> simp [hp, runSubtask]
    | handlePacket data =>
      simp only [next] at h₁
      split at h₁
      · rename_i hmem
        cases h₁
        exact hdue.trans ((due_handlePacket hmem).append_right _)
      · cases h₁

theorem drains (R : Receiver) : ∃ R', run (next unpack) R (R.running.map .handlePacket) = some R' ∧
    R'.running = [] ∧ (R.due unpack).Perm R'.recvQueue := by
  obtain ⟨buf, running, recvQueue⟩ := R
  induction running generalizing recvQueue with
  | nil => exact ⟨_, rfl, rfl, by simp [due]⟩
  | cons data running ih =>
    obtain ⟨R', hrun, hdone, hperm⟩ := ih (recvQueue ++ (puts unpack data).toList)
    refine ⟨R', ?_, hdone, ?_⟩
    · rw [← hrun, List.map_cons, run_cons, next, if_pos List.mem_cons_self]
      simp [handlePacket]
    · refine List.Perm.trans ?_ hperm
      cases hp : puts unpack data <;> simp [due, hp]

/-! ## One transmission among others -/

def Event.concerns (c : Connection) : Event → Bool
  | dataReceived connection _ | connectionLost connection _ => connection = c
  | datagramReceived _ | handlePacket _ => false

theorem handed_datagram (buf : Connection → Bytes) (before after : List Event) (data : Bytes) :
    (handed buf (before ++ .datagramReceived data :: after)).Perm
      (data :: handed buf (before ++ after)) := by
  induction before generalizing buf with
  | nil => exact List.Perm.refl _
  | cons l before ih =>
    cases l with
    | datagramReceived other => exact ((ih buf).cons other).trans (List.Perm.swap _ _ _)
    | dataReceived => exact ih _
    | handlePacket => exact ih _
    | connectionLost c error =>
      exact ((ih _).append_left _).trans List.perm_middle

/-- A connection and the other events do not interfere: its data is in a buffer of its own. -/
theorem handed_concerns {buf bufc bufo : Connection → Bytes} (hc : bufc c = buf c)
    (ho : ∀ k, k ≠ c → bufo k = buf k) : (handed buf ls).Perm
      (handed bufc (ls.filter (Event.concerns c)) ++
        handed bufo (ls.filter fun l => !l.concerns c)) := by
  induction ls generalizing buf bufc bufo with
  | nil => exact List.Perm.refl _
  | cons l ls ih =>
    cases l with
    | datagramReceived data => exact ((ih hc ho).cons data).trans List.perm_middle.symm
    | handlePacket => exact ih hc ho
    | dataReceived k data =>
      by_cases hk : k = c
      · subst hk
        have hrest := @ih (Function.update buf k (buf k ++ data))
          (Function.update bufc k (bufc k ++ data)) bufo (by simp [hc])
          fun j hj => by rw [Function.update_of_ne hj]; exact ho j hj
        simpa [handed, Event.concerns] using hrest
      · have hrest := @ih (Function.update buf k (buf k ++ data)) bufc
          (Function.update bufo k (bufo k ++ data))
          (by rw [Function.update_of_ne (Ne.symm hk)]; exact hc)
          fun j hj => by by_cases hjk : j = k <;> simp [hjk, ho k hk, ho j hj]
        simpa [handed, Event.concerns, hk] using hrest
    | connectionLost k error =>
      by_cases hk : k = c
      · subst hk
        have hrest := @ih (Function.update buf k []) (Function.update bufc k []) bufo (by simp)
          fun j hj => by rw [Function.update_of_ne hj]; exact ho j hj
        simpa [handed, Event.concerns, hc] using
          hrest.append_left (if error then [] else [buf k])
      · have hrest := @ih (Function.update buf k []) bufc (Function.update bufo k [])
          (by rw [Function.update_of_ne (Ne.symm hk)]; exact hc)
          fun j hj => by by_cases hjk : j = k <;> simp [hjk, ho j hj]
        have hmove := hrest.append_left (if error then [] else [buf k])
        refine List.Perm.trans ?_ (hmove.trans ?_)
        · exact List.Perm.refl _
        · simp only [List.filter_cons, Event.concerns, hk, decide_false, Bool.false_eq_true,
            if_false, Bool.not_false, if_true, handed, ho k hk]
          exact List.perm_append_comm_assoc _ _ _

/-- All of a connection's data is handed over when it is closed without an error, however it was
cut. -/
theorem handed_closed {buf : Connection → Bytes} (chunks : List Bytes) (error : Bool) :
    handed buf (chunks.map (.dataReceived c) ++ [.connectionLost c error]) =
      if error then [] else [buf c ++ chunks.flatten] := by
  induction chunks generalizing buf with
  | nil => simp [handed]
  | cons chunk chunks ih =>
    rw [List.map_cons, List.cons_append, handed, ih]
    simp

/-- The transmission arrives in a run, with bytes after it, and `rest` are the other events. The
data of a connection comes in chunks, and the buffer of its protocol starts empty. -/
def Arrives (sent : Sent) (extra : Bytes) (error : Bool) (R : Receiver) (ls rest : List Event) :
    Prop :=
  match sent with
  | .datagram data => ∃ before after, error = false ∧
      ls = before ++ .datagramReceived (data ++ extra) :: after ∧ rest = before ++ after
  | .stream data => ∃ (connection : Connection) (chunks : List Bytes), R.buf connection = [] ∧
      chunks.flatten = data ++ extra ∧
      ls.filter (Event.concerns connection) =
        chunks.map (.dataReceived connection) ++ [.connectionLost connection error] ∧
      rest = ls.filter fun l => !l.concerns connection

theorem handed_arrives {sent : Sent} {extra : Bytes} {error : Bool} {rest : List Event}
    (h : Arrives sent extra error R ls rest) :
    (handed R.buf ls).Perm
      ((if error then [] else [sent.data ++ extra]) ++ handed R.buf rest) := by
  cases sent with
  | datagram data =>
    obtain ⟨before, after, rfl, rfl, rfl⟩ := h
    exact handed_datagram R.buf before after _
  | stream data =>
    obtain ⟨c, chunks, hbuf, hflat, hc, rfl⟩ := h
    have hsplit := @handed_concerns ls c R.buf R.buf R.buf rfl fun _ _ => rfl
    rw [hc, handed_closed, hbuf, hflat, List.nil_append] at hsplit
    exact hsplit

/-- **A packet sent is the packet received.** Both ends hold the same secret, hash, version and
prefix. Whatever else arrives, the packet is put on the queue once for its datagram or for its
connection, and not at all when the connection is lost with an error. -/
theorem received_once (hmac : Bytes → Bytes → String → Bytes) (dumps : Packet → Bytes)
    (loads : Bytes → Except PyError (Option Packet)) (P Q : UdpPack)
    (hsignatures : Q.signatures = P.signatures) (hxor : Q.prefixXor = P.prefixXor)
    (hdigest : ∀ msg, (hmac P.signatures.secret msg P.signatures.hashName).length =
      P.signatures.digestSize)
    (hsize : P.signatures.digestSize ≤ 255) (packet : Packet)
    (hpickle : loads (dumps packet) = .ok (some packet))
    (hfits : (dumps packet).length < 2 ^ 32) (salt : Bytes) (hsalt : salt.length = 16) :
    ∃ data, P.pack hmac dumps packet salt = .ok data ∧
      (∀ mtuSize, P.doSend hmac dumps mtuSize packet salt =
        .ok (if data.length ≤ mtuSize then .datagram data else .stream data)) ∧
      ∀ sent, sent = .datagram data ∨ sent = .stream data →
        ∀ extra error R ls R' rest, run (next (Q.unpack hmac loads)) R ls = some R' →
          Arrives sent extra error R ls rest →
          (R'.due (Q.unpack hmac loads)).Perm (R.due (Q.unpack hmac loads) ++
            ((if error then [] else [packet]) ++
              (handed R.buf rest).filterMap (puts (Q.unpack hmac loads)))) ∧
          ∃ R'', run (next (Q.unpack hmac loads)) R' (R'.running.map .handlePacket) = some R'' ∧
            R''.running = [] ∧ (R'.due (Q.unpack hmac loads)).Perm R''.recvQueue := by
  obtain rfl : Q = P := by
    obtain ⟨S, pre, hlen⟩ := P
    obtain ⟨S', pre', hlen'⟩ := Q
    cases hsignatures
    cases hxor
    rfl
  have hlen : (Q.signatures.sign hmac salt (dumps packet)).digest.length =
      Q.signatures.digestSize := hdigest _
  obtain ⟨data, hdata⟩ := @UdpPack.frame_ok Q (Q.signatures.sign hmac salt (dumps packet))
    (dumps packet) (by rw [Signatures.sign, hsalt]; decide) (by rw [hlen]; omega) hfits
  have hpack : Q.pack hmac dumps packet salt = .ok data := hdata
  refine ⟨data, hpack, fun mtuSize => ?_, ?_⟩
  · rw [UdpPack.doSend, hpack]
    simp only [bind, Except.bind, pure, Except.pure]
    split <;> rfl
  · intro sent hsent extra error R ls R' rest hrun harrives
    refine ⟨?_, drains R'⟩
    have hputs : puts (Q.unpack hmac loads) (sent.data ++ extra) = some packet := by
      have hsame : sent.data = data := by obtain rfl | rfl := hsent <;> rfl
      rw [hsame, puts, UdpPack.unpack_pack hpack hlen hpickle extra]
    have hhanded := (handed_arrives harrives).filterMap (puts (Q.unpack hmac loads))
    refine (run_due hrun).trans (List.Perm.append_left _ (hhanded.trans (List.Perm.of_eq ?_)))
    cases error <;> simp [hputs]

def pingPacket : Packet := .ping ⟨"a", List.replicate 8 0⟩

/-- A digest of 32 bytes that is the real one on the signed bytes. -/
def sizedHmac (_secret msg : Bytes) (_hashName : String) : Bytes :=
  if msg = version ++ UdpPack.pingSalt ++ UdpPack.pingPickled then UdpPack.pingDigest
  else List.replicate 32 0

def pingLoads (data : Bytes) : Except PyError (Option Packet) :=
  if data = UdpPack.pingPickled then .ok (some pingPacket) else .error .value

theorem sizedHmac_length (secret msg : Bytes) (hashName : String) :
    (sizedHmac secret msg hashName).length = 32 := by
  unfold sizedHmac
  split <;> rfl

/-- A `Ping` from `a`, over a connection that brings it in two parts, with a byte after it. -/
theorem received_once_ping : ∃ data : Bytes,
    UdpPack.swimPack.pack sizedHmac (fun _ => UdpPack.pingPickled) pingPacket UdpPack.pingSalt =
      .ok data ∧
    ∃ R', run (next (UdpPack.swimPack.unpack sizedHmac pingLoads)) ⟨fun _ => [], [], []⟩
        [.dataReceived 0 (data.take 3), .dataReceived 1 [0], .dataReceived 0 (data.drop 3 ++ [7]),
          .connectionLost 0 false] = some R' ∧
      (R'.due (UdpPack.swimPack.unpack sizedHmac pingLoads)).Perm [pingPacket] := by
  obtain ⟨data, hpack, -, hall⟩ := received_once sizedHmac (fun _ => UdpPack.pingPickled) pingLoads
    UdpPack.swimPack UdpPack.swimPack rfl rfl (fun _ => sizedHmac_length _ _ _) (by decide)
    pingPacket rfl (by decide) UdpPack.pingSalt rfl
  refine ⟨data, hpack, _, rfl, ?_⟩
  have hreceived := (hall (.stream data) (Or.inr rfl) [7] false ⟨fun _ => [], [], []⟩
    [.dataReceived 0 (data.take 3), .dataReceived 1 [0], .dataReceived 0 (data.drop 3 ++ [7]),
      .connectionLost 0 false] _ [.dataReceived 1 [0]] rfl
    ⟨0, [data.take 3, data.drop 3 ++ [7]], rfl, by simp [← List.append_assoc], rfl, rfl⟩).1
  exact hreceived

end Receiver

end Swim
