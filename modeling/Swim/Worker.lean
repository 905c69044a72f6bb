import Swim.Members

/-!
# Swim.Worker

`swimprotocol.worker.Worker`.

`asyncio` runs one task at a time and the queues are unbounded, so `put` never suspends: between
two suspension points a coroutine is one atomic function of the worker. These are

* `runHandler` — one pass of the loop of `_run_handler`, for one packet; `receive` is that pass
  seen from outside, where an exception ends the handler (`failed`).
* `checkPing`, `checkPingReq`, `checkVerdict` — the parts of `check` around its two waits.
* `suspectWait` — `_suspect_wait` once its sleep is over. `suspect` is the set of members with a
  pending timer: a cancelled timer never runs, and the dictionary holds one task for a member.
* `disseminate`.

`events` holds the `asyncio.Event` objects of the waits by number, `true` once set.
-/

namespace Swim

abbrev EventId := Nat

structure Worker where
  config : Config
  members : Members
  sendQueue : List (Name × Packet)
  waiting : Name → Finset EventId
  events : EventId → Bool
  listening : Name → List Name
  suspect : Finset Name
  failed : Option PyError

namespace Worker

def localMember (w : Worker) : Member := w.members.localMember

def send (w : Worker) (target : Name) (packet : Packet) : Worker :=
  { w with sendQueue := w.sendQueue ++ [(target, packet)] }

def sendAll (w : Worker) (targets : List Name) (packet : Packet) : Worker :=
  targets.foldl (fun w target => w.send target packet) w

def addWaiting (w : Worker) (member : Name) (event : EventId) : Worker :=
  { w with waiting := Function.update w.waiting member (insert event (w.waiting member)) }

def addListening (w : Worker) (member target : Name) : Worker :=
  if member ∈ w.listening target then w
  else
    { w with listening := Function.update w.listening target (w.listening target ++ [member]) }

def notifyWaiting (w : Worker) (member : Name) : Worker :=
  { w with events := fun event => if event ∈ w.waiting member then true else w.events event }

def getListening (w : Worker) (member : Name) : List Name × Worker :=
  (w.listening member, { w with listening := Function.update w.listening member [] })

def handleStatus (w : Worker) (target : Name) (status : Status) : Worker :=
  if status = .suspect then { w with suspect := insert target w.suspect }
  else { w with suspect := w.suspect.erase target }

/-- A method of `members` called on behalf of the worker. -/
def withMembers (w : Worker) (r : Py Members) : Py Worker :=
  r.inside fun members => { w with members }

def buildGossip (localMember member : Member) : Gossip where
  source := localMember.source
  name := member.name
  clock := member.clock
  status := member.status
  metadata := member.metadataDict

def gossipReply (localMember : Member) (gossip : Gossip) : GossipAck :=
  ⟨localMember.source, gossip.name, gossip.clock⟩

def applyGossip (w : Worker) (source member : Member) (gossip : Gossip) (env : Env) : Py Worker :=
  let w := w.handleStatus member.name gossip.status
  w.withMembers
    (w.members.apply member source gossip.clock gossip.status gossip.metadata env)

def get (w : Worker) (name : Name) (validity : Option Bytes) (env : Env) : Worker × Member :=
  let (members, member) := w.members.get name validity env
  ({ w with members }, member)

def greet (w : Worker) (packet : Packet) (env : Env) : Worker × Member :=
  let (w, source) := w.get packet.source.name (some packet.source.validity) env
  let w := w.notifyWaiting source.name
  let (targets, w) := w.getListening source.name
  (w.sendAll targets (.ack source.source), source)

def runHandler (w : Worker) (packet : Packet) (env : Env) : Py Worker :=
  let (w, source) := w.greet packet env
  match packet with
  | .ping _ => .ok (w.send source.name (.ack w.localMember.source))
  | .pingReq _ target =>
    let (w, target) := w.get target none env
    let w := w.send target.name (.ping w.localMember.source)
    .ok (w.addListening source.name target.name)
  | .ack _ => .ok w
  | .gossip gossip =>
    let (w, member) := w.get gossip.name none env
    (w.applyGossip source member gossip env).andThen fun w =>
    .ok (w.send source.name (.gossipAck (gossipReply w.localMember gossip)))
  | .gossipAck gossipAck =>
    let (w, member) := w.get gossipAck.name none env
    w.withMembers (w.members.ackGossip member source gossipAck.clock)

/-- The handler takes the packet off the queue; an exception ends its task. -/
def receive (w : Worker) (packet : Packet) (env : Env) : Worker :=
  let r := w.runHandler packet env
  { r.after with failed := r.raised }

/-- `check` up to its first wait. -/
def checkPing (w : Worker) (target : Name) : Worker :=
  w.send target (.ping w.localMember.source)

/-- The tasks `check` starts between its waits, for the members it found. -/
def checkPingReq (w : Worker) (target : Name) (indirects : List Name) : Worker :=
  w.sendAll indirects (.pingReq w.localMember.source target)

/-- The end of `check`. -/
def checkVerdict (w : Worker) (target : Member) (online : Bool) (env : Env) : Py Worker :=
  let newStatus := if online then .online else .suspect
  let w := w.handleStatus target.name newStatus
  w.withMembers (w.members.update target (some newStatus) none env)

def suspectWait (w : Worker) (target : Member) (env : Env) : Py Worker :=
  (w.withMembers (w.members.update target (some .offline) none env)).andThen fun w =>
  .ok { w with suspect := w.suspect.erase target.name }

def disseminate (w : Worker) (target : Member) : Worker :=
  (w.members.getGossip target).foldl
    (fun w member => w.send target.name (.gossip (buildGossip w.localMember member))) w

def init (config : Config) (env : Env) : Worker where
  config := config
  members := (Members.init config env).after
  sendQueue := []
  waiting := fun _ => ∅
  events := fun _ => false
  listening := fun _ => []
  suspect := ∅
  failed := none

/-- What a running worker does in one atomic step. `update` is the application's call of
`members.update`; the outcome of a check is any. -/
inductive Action where
  | receive (packet : Packet)
  | ping (target : Name)
  | pingReq (target : Name) (indirects : List Name)
  | verdict (target : Name) (online : Bool)
  | expire (target : Name)
  | disseminate (target : Name)
  | update (name : Name) (newStatus : Option Status) (newMetadata : Option Metadata)

def peer (w : Worker) (name : Name) : Option Member :=
  (w.members.members name).filter fun member => !member.isLocal

/-- One step: the handler takes packets until it has failed, checks and gossip concern non-local
members, and a timer expires while it is pending. -/
def step (w : Worker) (action : Action) (env : Env) : Option Worker :=
  match action with
  | .receive packet => if w.failed = none then some (w.receive packet env) else none
  | .ping target => (w.peer target).map fun target => w.checkPing target.name
  | .pingReq target indirects =>
    (w.peer target).map fun target => w.checkPingReq target.name indirects
  | .verdict target online =>
    (w.peer target).map fun target => (w.checkVerdict target online env).after
  | .expire target =>
    if target ∈ w.suspect then
      (w.members.members target).map fun target => (w.suspectWait target env).after
    else none
  | .disseminate target => (w.peer target).map w.disseminate
  | .update name newStatus newMetadata =>
    (w.members.members name).map fun member =>
      (w.withMembers (w.members.update member newStatus newMetadata env)).after

/-- The step for a label: an action together with what it reads from outside. -/
def next (w : Worker) (l : Action × Env) : Option Worker := w.step l.1 l.2

end Worker

end Swim
