import Swim.Member
import Swim.Shuffle

/-!
# Swim.Members

`swimprotocol.members.Members` and the parts of `swimprotocol.config.BaseConfig` it reads.

There is one `Member` object for each name, so the table `members` (the weak dictionary
`_members`, whose values `_local` and `_non_local` keep alive) is also the heap of `Member`
objects, and a reference to a member is its name. A method that is passed a `Member` gets the
current value of the object; `put` writes it back.

* `get`, `_update`, `update`, `apply`, `getGossip`, `ackGossip`, `find` — the methods.
* `init` — `__init__`.
* `Op`, `step` — the calls an application or a worker can make on members of the table, for results
  about every state that any sequence of them reaches.
-/

namespace Swim

/-- `BaseConfig` raises `ConfigError` for an empty local name. -/
structure Config where
  localName : Name
  peers : List Name
  localMetadata : Metadata
  pingReqCount : Nat
  named : localName ≠ ""

/-- `listener` is the sequence of members passed to `listener.notify`. -/
structure Members where
  listener : List Name
  nextClock : Int
  localName : Name
  nonLocal : List Name
  members : Name → Option Member
  statuses : Status → WeakShuffle Name

namespace Members

/-- The object `_local`; `_members` always has it. -/
def localMember (M : Members) : Member := (M.members M.localName).getD default

def put (M : Members) (m : Member) : Members :=
  { M with members := Function.update M.members m.name (some m) }

def notify (M : Members) (m : Member) : Members := { M with listener := M.listener ++ [m.name] }

/-- `for status in Status.all_statuses()`, with `edit` done to the shuffle of each. -/
def editStatuses (M : Members) (edit : Status → WeakShuffle Name → WeakShuffle Name) : Members :=
  Status.allStatuses.foldl (fun M status =>
    { M with
      statuses := Function.update M.statuses status (edit status (M.statuses status)) }) M

def refreshStatuses (M : Members) (m : Member) : Members :=
  if m.isLocal then M
  else
    M.editStatuses fun status shuffle =>
      if m.status.overlaps status then shuffle.add m.name else shuffle.discard m.name

def create (M : Members) (m : Member) : Members :=
  let M := { M with nonLocal := M.nonLocal ++ [m.name] }.put m
  M.editStatuses fun status shuffle =>
    if m.status.overlaps status then shuffle.add m.name else shuffle

/-- The first half of `get`: look the name up, creating the member if there is none. -/
def getOrCreate (M : Members) (name : Name) (env : Env) : Members × Member :=
  match M.members name with
  | some member => (M, member)
  | none => (M.create (.new name false env), .new name false env)

def get (M : Members) (name : Name) (validity : Option Bytes) (env : Env) : Members × Member :=
  let (M, member) := M.getOrCreate name env
  match validity with
  | some validity =>
    if member.isLocal = false ∧ member.validity ≠ validity then
      let member := { member with knownClocks := fun _ => none, validity }
      (M.put member, member)
    else (M, member)
  | none => (M, member)

/-- The rest of `_update` after `_save` returned `updated` and left `member`. -/
def commit (M : Members) (updated : Bool) (member : Member) : Members :=
  let nextClock := M.nextClock
  let M := M.put member
  let M := if updated then (M.refreshStatuses member).notify member else M
  if member.clock ≥ nextClock then { M with nextClock := member.clock + 1 } else M

def _update (M : Members) (member : Member) (source : Option Member) (clock : Int)
    (status : Option Status) (metadata : Option Metadata) (env : Env) : Py Members :=
  let nextClock := M.nextClock
  match member.stage clock nextClock status metadata with
  | .error r => .error ⟨r.error, M.put r.state⟩
  | .ok member =>
    let (updated, member) := member.save source nextClock env.now
    .ok (M.commit updated member)

def update (M : Members) (member : Member) (newStatus : Option Status)
    (newMetadata : Option Metadata) (env : Env) : Py Members :=
  M._update member none M.nextClock newStatus newMetadata env

def apply (M : Members) (member source : Member) (clock : Int) (status : Status)
    (metadata : Option Metadata) (env : Env) : Py Members :=
  M._update member (some source) clock (some status) metadata env

def getGossip (M : Members) (target : Member) : List Member :=
  (if target.needsGossip M.localMember then [M.localMember] else []) ++
    (M.nonLocal.filterMap M.members).filter fun member =>
      member.metadataDict.isSome && target.needsGossip member

def ackGossip (M : Members) (member source : Member) (clock : Int) : Py Members :=
  if clock ≤ M.nextClock then
    .ok (M.put { source with
      knownClocks := Function.update source.knownClocks member.name (some clock) })
  else .error ⟨.assertion, M⟩

/-- The loop of `find`, for the draws it makes: `none` when they do not end it. -/
def findLoop (shuffle : WeakShuffle Name) (numResults : Nat) :
    List Nat → Finset Name → Option (Except PyError (Finset Name))
  | draws, results =>
    if results.card < numResults then
      match draws with
      | [] => none
      | draw :: draws =>
        match shuffle.choice draw with
        | .error e => some (.error e)
        | .ok member => findLoop shuffle numResults draws (insert member results)
    else some (.ok results)

def find (M : Members) (count : Nat) (status : Status) (exclude : Finset Name) (draws : List Nat) :
    Option (Except PyError (Finset Name)) :=
  let shuffle := M.statuses status
  let numExcluded := (exclude.filter fun member => shuffle.contains member).card
  let numRemaining := shuffle.len - numExcluded
  findLoop shuffle (min numRemaining count) draws ∅

/-- `__init__` up to the final `update`. -/
def load (config : Config) (env : Env) : Members :=
  let M : Members :=
    { listener := []
      nextClock := 1
      localName := config.localName
      nonLocal := []
      members := Function.update (fun _ => none) config.localName
        (some (.new config.localName true env))
      statuses := fun _ => .empty }
  config.peers.foldl (fun M peer => (M.get peer none env).1) M

def init (config : Config) (env : Env) : Py Members :=
  let M := load config env
  M.update M.localMember (some .online) (some config.localMetadata) env

/-- The calls that change the table, on members of it: a member is passed by its name. A `Member` an
application has made itself is none. -/
inductive Op where
  | get (name : Name) (validity : Option Bytes)
  | update (name : Name) (newStatus : Option Status) (newMetadata : Option Metadata)
  | apply (name source : Name) (clock : Int) (status : Status) (metadata : Option Metadata)
  | ackGossip (name source : Name) (clock : Int)

/-- The table after a call, whether it returned or raised. -/
def step (M : Members) (l : Op × Env) : Option Members :=
  match l.1 with
  | .get name validity => some (M.get name validity l.2).1
  | .update name newStatus newMetadata =>
    (M.members name).map fun member => (M.update member newStatus newMetadata l.2).after
  | .apply name source clock status metadata =>
    (M.members name).bind fun member => (M.members source).map fun source =>
      (M.apply member source clock status metadata l.2).after
  | .ackGossip name source clock =>
    (M.members name).bind fun member => (M.members source).map fun source =>
      (M.ackGossip member source clock).after

end Members

end Swim
