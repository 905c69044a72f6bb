import Swim.Calls

/-!
# Swim.Objects

`swimprotocol.members.Members` with its `Member` objects as they are: `_local`, `_non_local` and
`_members` refer to objects, and two objects may have the same name. An object is a position in the
heap, which also has objects the application made by calling `Member`.

* `get`, `_update`, `update`, `apply`, `ackGossip`, `init` — the methods, on references.
* `contains`, `iter`, `len` — the methods `Set` derives its operators from. The keys of
  `_members` are names, so that `contains` compares a `str` with what it is given.
* `Linked` — each member of the set is in the dictionary under its name, and no two have the same.
* `SameSet`, `joined` — what the calls make of the set: nothing, or one more member.
-/

namespace Swim

open Transition

abbrev ObjectId := Nat

/-- A Python value that may be looked for among the members. -/
inductive Value where
  | str (s : Name)
  | member (object : ObjectId)
  deriving DecidableEq

/-- `nonLocal` is the set `_non_local`; `members` are the items of the weak dictionary `_members`,
latest last. The shuffles compare members by name. -/
structure Objects where
  objects : List Member
  localId : ObjectId
  nonLocal : List ObjectId
  members : List (Name × ObjectId)
  nextClock : Int
  listener : List ObjectId
  statuses : Status → WeakShuffle Name

namespace Objects

def object (O : Objects) (r : ObjectId) : Member := (O.objects[r]?).getD default

def name (O : Objects) (r : ObjectId) : Name := (O.object r).name

def write (O : Objects) (r : ObjectId) (m : Member) : Objects :=
  { O with objects := O.objects.set r m }

def construct (O : Objects) (name : Name) (isLocal : Bool) (env : Env) : Objects × ObjectId :=
  ({ O with objects := O.objects ++ [.new name isLocal env] }, O.objects.length)

/-! ## Python equality -/

/-- `Member.__eq__` and `str.__eq__`; `none` is `NotImplemented`. -/
def dunderEq (O : Objects) : Value → Value → Option Bool
  | .member r, .member r' => some (O.name r == O.name r')
  | .str s, .str s' => some (s == s')
  | .member _, .str _ | .str _, .member _ => none

/-- `a == b`: the methods of both are asked, and then it is identity. -/
def equals (O : Objects) (a b : Value) : Bool :=
  ((O.dunderEq a b).or (O.dunderEq b a)).getD (a == b)

/-! ## The dictionary -/

/-- Something other than the dictionary refers to the object. -/
def held (O : Objects) (r : ObjectId) : Bool := r == O.localId || O.nonLocal.contains r

/-- The items of `_members` whose value is alive. -/
def items (O : Objects) : List (Name × ObjectId) := O.members.filter fun e => O.held e.2

/-- `self._members.get(name)`. -/
def lookup (O : Objects) (name : Name) : Option ObjectId :=
  (O.items.find? fun e => e.1 == name).map Prod.snd

/-- `__contains__`. Equal keys have the same hash: that of a member is the hash of its name. -/
def contains (O : Objects) (val : Value) : Bool :=
  O.items.any fun e => O.equals (.str e.1) val

def iter (O : Objects) : List ObjectId := O.items.map Prod.snd

def len (O : Objects) : Nat := O.items.length

/-- `self <= self`, which `Set` defines: every element is contained. -/
def leSelf (O : Objects) : Bool :=
  if O.len > O.len then false else O.iter.all fun r => O.contains (.member r)

/-! ## The methods -/

def notify (O : Objects) (r : ObjectId) : Objects := { O with listener := O.listener ++ [r] }

def editStatuses (O : Objects) (edit : Status → WeakShuffle Name → WeakShuffle Name) : Objects :=
  Status.allStatuses.foldl (fun O status =>
    { O with
      statuses := Function.update O.statuses status (edit status (O.statuses status)) }) O

def refreshStatuses (O : Objects) (r : ObjectId) : Objects :=
  let m := O.object r
  if m.isLocal then O
  else
    O.editStatuses fun status shuffle =>
      if m.status.overlaps status then shuffle.add m.name else shuffle.discard m.name

/-- `self._non_local.add(member)`. -/
def addNonLocal (O : Objects) (r : ObjectId) : Objects :=
  if O.nonLocal.any fun r' => O.equals (.member r') (.member r) then O
  else { O with nonLocal := O.nonLocal ++ [r] }

/-- `self._members[name] = member`. -/
def assign (O : Objects) (name : Name) (r : ObjectId) : Objects :=
  { O with members := O.members.filter (fun e => e.1 != name) ++ [(name, r)] }

/-- A new non-local member, before it is in the shuffles. -/
def register (O : Objects) (name : Name) (env : Env) : Objects × ObjectId :=
  let (O, r) := O.construct name false env
  ((O.addNonLocal r).assign name r, r)

def create (O : Objects) (name : Name) (env : Env) : Objects × ObjectId :=
  let (O, r) := O.register name env
  let m := O.object r
  (O.editStatuses fun status shuffle =>
    if m.status.overlaps status then shuffle.add m.name else shuffle, r)

def getOrCreate (O : Objects) (name : Name) (env : Env) : Objects × ObjectId :=
  match O.lookup name with
  | some r => (O, r)
  | none => O.create name env

def get (O : Objects) (name : Name) (validity : Option Bytes) (env : Env) : Objects × ObjectId :=
  let (O, r) := O.getOrCreate name env
  match validity with
  | some validity =>
    let m := O.object r
    if m.isLocal = false ∧ m.validity ≠ validity then
      (O.write r { m with knownClocks := fun _ => none, validity }, r)
    else (O, r)
  | none => (O, r)

/-- The rest of `_update` after `_save` returned `updated` and left the object as `m`. -/
def commit (O : Objects) (updated : Bool) (r : ObjectId) (m : Member) : Objects :=
  let nextClock := O.nextClock
  let O := O.write r m
  let O := if updated then (O.refreshStatuses r).notify r else O
  if m.clock ≥ nextClock then { O with nextClock := m.clock + 1 } else O

def _update (O : Objects) (r : ObjectId) (source : Option ObjectId) (clock : Int)
    (status : Option Status) (metadata : Option Metadata) (env : Env) : Py Objects :=
  let nextClock := O.nextClock
  match (O.object r).stage clock nextClock status metadata with
  | .error e => .error ⟨e.error, O.write r e.state⟩
  | .ok member =>
    let (updated, member) := member.save (source.map O.object) nextClock env.now
    .ok (O.commit updated r member)

def update (O : Objects) (r : ObjectId) (newStatus : Option Status)
    (newMetadata : Option Metadata) (env : Env) : Py Objects :=
  O._update r none O.nextClock newStatus newMetadata env

def apply (O : Objects) (r source : ObjectId) (clock : Int) (status : Status)
    (metadata : Option Metadata) (env : Env) : Py Objects :=
  O._update r (some source) clock (some status) metadata env

def ackGossip (O : Objects) (r source : ObjectId) (clock : Int) : Py Objects :=
  if clock ≤ O.nextClock then
    let m := O.object source
    .ok (O.write source { m with
      knownClocks := Function.update m.knownClocks (O.name r) (some clock) })
  else .error ⟨.assertion, O⟩

/-- `__init__` up to the loop over the peers. -/
def start (config : Config) (env : Env) : Objects where
  objects := [.new config.localName true env]
  localId := 0
  nonLocal := []
  members := [(config.localName, 0)]
  nextClock := 1
  listener := []
  statuses := fun _ => .empty

/-- `__init__` up to the final `update`. -/
def load (config : Config) (env : Env) : Objects :=
  config.peers.foldl (fun O peer => (O.get peer none env).1) (start config env)

def init (config : Config) (env : Env) : Py Objects :=
  let O := load config env
  O.update O.localId (some .online) (some config.localMetadata) env

/-- The calls an application can make, also on members it made itself. -/
inductive Op where
  | construct (name : Name) (isLocal : Bool)
  | get (name : Name) (validity : Option Bytes)
  | update (member : ObjectId) (newStatus : Option Status) (newMetadata : Option Metadata)
  | apply (member source : ObjectId) (clock : Int) (status : Status) (metadata : Option Metadata)
  | ackGossip (member source : ObjectId) (clock : Int)

def Op.args : Op → List ObjectId
  | construct _ _ | get _ _ => []
  | update member _ _ => [member]
  | apply member source _ _ _ | ackGossip member source _ => [member, source]

def step (O : Objects) (l : Op × Env) : Option Objects :=
  if ∀ r ∈ l.1.args, r < O.objects.length then
    some (match l.1 with
      | .construct name isLocal => (O.construct name isLocal l.2).1
      | .get name validity => (O.get name validity l.2).1
      | .update member newStatus newMetadata => (O.update member newStatus newMetadata l.2).after
      | .apply member source clock status metadata =>
        (O.apply member source clock status metadata l.2).after
      | .ackGossip member source clock => (O.ackGossip member source clock).after)
  else none

/-! ## The views -/

variable {O O' : Objects} {r r' : ObjectId} {n : Name} {m : Member} {env : Env}

def refs (O : Objects) : List ObjectId := O.localId :: O.nonLocal

/-- Each member of the set is in the dictionary under its name, and no two have the same. -/
structure Linked (O : Objects) : Prop where
  members : O.members = O.refs.map fun r => (O.name r, r)
  names : (O.refs.map O.name).Nodup
  bound : ∀ r ∈ O.refs, r < O.objects.length
  listener : ∀ r ∈ O.listener, r < O.objects.length

theorem held_iff : O.held r = true ↔ r ∈ O.refs := by
  simp [held, refs]

theorem Linked.items (h : O.Linked) : O.items = O.refs.map fun r => (O.name r, r) := by
  rw [Objects.items, h.members, List.filter_eq_self]
  intro e he
  obtain ⟨r, hr, rfl⟩ := List.mem_map.mp he
  exact held_iff.mpr hr

theorem Linked.iter (h : O.Linked) : O.iter = O.refs := by
  rw [Objects.iter, h.items, List.map_map]
  exact List.map_id _

theorem Linked.lookup (h : O.Linked) : O.lookup n = O.refs.find? fun r => O.name r == n := by
  rw [Objects.lookup, h.items, List.find?_map, Option.map_map]
  exact congrFun Option.map_id _

theorem Linked.lookup_eq_some (h : O.Linked) : O.lookup n = some r ↔ r ∈ O.refs ∧ O.name r = n := by
  rw [h.lookup]
  constructor
  · intro hr
    exact ⟨List.mem_of_find?_eq_some hr, by simpa using List.find?_some hr⟩
  · rintro ⟨hr, rfl⟩
    obtain ⟨r', hr'⟩ : ∃ r', O.refs.find? (fun r' => O.name r' == O.name r) = some r' :=
      Option.isSome_iff_exists.mp (List.find?_isSome.mpr ⟨r, hr, by simp⟩)
    have hname : O.name r' = O.name r := by simpa using List.find?_some hr'
    rw [hr', List.inj_on_of_nodup_map h.names (List.mem_of_find?_eq_some hr') hr hname]

theorem Linked.lookup_eq_none (h : O.Linked) : O.lookup n = none ↔ n ∉ O.refs.map O.name := by
  rw [Option.eq_none_iff_forall_ne_some, List.mem_map]
  constructor
  · rintro hno ⟨r, hr, hn⟩
    exact hno r (h.lookup_eq_some.mpr ⟨hr, hn⟩)
  · rintro hno r hr
    exact hno ⟨r, h.lookup_eq_some.mp hr⟩

/-- A name and a member are never equal, so no member is found among the names. -/
theorem contains_member : O.contains (.member r) = false := by
  rw [contains, List.any_eq_false]
  intro e _
  simp [equals, dunderEq]

theorem Linked.contains_str (h : O.Linked) :
    O.contains (.str n) = true ↔ ∃ r ∈ O.iter, O.name r = n := by
  rw [contains, h.items, h.iter, List.any_eq_true]
  simp [equals, dunderEq]

/-! ## Calls keep the members linked -/

/-- The set, its members and their names are the same; objects may have been made. -/
structure SameSet (O O' : Objects) : Prop where
  localId : O'.localId = O.localId
  nonLocal : O'.nonLocal = O.nonLocal
  members : O'.members = O.members
  objects : O.objects.length ≤ O'.objects.length
  name : ∀ r < O.objects.length, O'.name r = O.name r

theorem SameSet.refl (O : Objects) : O.SameSet O := ⟨rfl, rfl, rfl, le_rfl, fun _ _ => rfl⟩

theorem SameSet.refs (h : O.SameSet O') : O'.refs = O.refs := by
  rw [Objects.refs, Objects.refs, h.localId, h.nonLocal]

theorem Linked.same (h : O.Linked) (hs : O.SameSet O')
    (hl : ∀ r ∈ O'.listener, r ∈ O.listener ∨ r < O.objects.length) : O'.Linked where
  members := by
    rw [hs.members, h.members, hs.refs]
    exact List.map_congr_left fun r hr => by rw [hs.name r (h.bound r hr)]
  names := by
    rw [hs.refs, List.map_congr_left fun r hr => hs.name r (h.bound r hr)]
    exact h.names
  bound := by
    intro r hr
    rw [hs.refs] at hr
    exact lt_of_lt_of_le (h.bound r hr) hs.objects
  listener := by
    intro r hr
    obtain hold | hnew := hl r hr
    · exact lt_of_lt_of_le (h.listener r hold) hs.objects
    · exact lt_of_lt_of_le hnew hs.objects

theorem object_write_self (hr : r < O.objects.length) : (O.write r m).object r = m := by
  simp [object, write, hr]

theorem object_write_of_ne (hr : r' ≠ r) : (O.write r m).object r' = O.object r' := by
  simp [object, write, Ne.symm hr]

theorem sameSet_write (hm : m.name = O.name r) : O.SameSet (O.write r m) where
  localId := rfl
  nonLocal := rfl
  members := rfl
  objects := by simp [write]
  name := by
    intro r' hr'
    by_cases hr : r' = r
    · subst hr
      rw [name, object_write_self hr', hm]
    · rw [name, object_write_of_ne hr]; rfl

theorem object_construct_self {isLocal : Bool} :
    (O.construct n isLocal env).1.object O.objects.length = .new n isLocal env := by
  simp [object, construct]

theorem object_construct_of_lt {isLocal : Bool} (hr : r < O.objects.length) :
    (O.construct n isLocal env).1.object r = O.object r := by
  simp [object, construct, List.getElem?_append_left hr]

theorem sameSet_construct {isLocal : Bool} : O.SameSet (O.construct n isLocal env).1 where
  localId := rfl
  nonLocal := rfl
  members := rfl
  objects := by simp [construct]
  name := fun r hr => by rw [name, object_construct_of_lt hr]; rfl

theorem editStatuses_eq (edit : Status → WeakShuffle Name → WeakShuffle Name) :
    ∃ statuses, O.editStatuses edit = { O with statuses } := by
  rw [editStatuses]
  induction Status.allStatuses generalizing O with
  | nil => exact ⟨O.statuses, rfl⟩
  | cons s l ih =>
    rw [List.foldl_cons]
    obtain ⟨statuses, hrest⟩ := @ih { O with
      statuses := Function.update O.statuses s (edit s (O.statuses s)) }
    exact ⟨statuses, hrest⟩

theorem refreshStatuses_eq : ∃ statuses, O.refreshStatuses r = { O with statuses } := by
  unfold refreshStatuses
  dsimp only
  split
  · exact ⟨O.statuses, rfl⟩
  · exact editStatuses_eq _

def joined (O : Objects) (n : Name) (env : Env) : Objects :=
  { O with
    objects := O.objects ++ [.new n false env]
    nonLocal := O.nonLocal ++ [O.objects.length]
    members := O.members ++ [(n, O.objects.length)] }

theorem Linked.register (h : O.Linked) (hn : O.lookup n = none) :
    O.register n env = (O.joined n env, O.objects.length) := by
  have hnew := h.lookup_eq_none.mp hn
  have hadd : ¬ ((O.construct n false env).1.nonLocal.any fun r =>
      (O.construct n false env).1.equals (.member r) (.member O.objects.length)) = true := by
    rw [List.any_eq_true]
    rintro ⟨r, hr, heq⟩
    have hmem : r ∈ O.refs := List.mem_cons_of_mem _ hr
    have hname : O.name r = n := by
      have heq : (O.construct n false env).1.name r =
          (O.construct n false env).1.name O.objects.length := by
        simpa [equals, dunderEq] using heq
      rwa [name, name, object_construct_self, object_construct_of_lt (h.bound r hmem)] at heq
    exact hnew (List.mem_map.mpr ⟨r, hmem, hname⟩)
  have hfilter : O.members.filter (fun e => e.1 != n) = O.members := by
    rw [List.filter_eq_self, h.members]
    intro e he
    obtain ⟨r, hr, rfl⟩ := List.mem_map.mp he
    have hne : O.name r ≠ n := fun heq => hnew (List.mem_map.mpr ⟨r, hr, heq⟩)
    simpa using hne
  have hfst : (O.construct n false env).2 = O.objects.length := rfl
  simp only [Objects.register, addNonLocal, hfst, if_neg hadd]
  simp only [assign, construct, hfilter, joined]

theorem object_joined_self : (O.joined n env).object O.objects.length = .new n false env := by
  simp [object, joined]

theorem object_joined_of_lt (hr : r < O.objects.length) :
    (O.joined n env).object r = O.object r := by
  simp [object, joined, List.getElem?_append_left hr]

theorem refs_joined : (O.joined n env).refs = O.refs ++ [O.objects.length] := rfl

theorem Linked.joined (h : O.Linked) (hn : O.lookup n = none) : (O.joined n env).Linked where
  members := by
    rw [refs_joined, List.map_append, List.map_singleton, name, object_joined_self,
      Objects.joined, h.members]
    refine congrArg (· ++ _) (List.map_congr_left fun r hr => ?_)
    rw [name, name, ← @object_joined_of_lt O r n env (h.bound r hr)]
    rfl
  names := by
    have hold : O.refs.map (O.joined n env).name = O.refs.map O.name :=
      List.map_congr_left fun r hr => by
        rw [name, object_joined_of_lt (h.bound r hr)]; rfl
    rw [refs_joined, List.map_append, List.map_singleton, hold, name, object_joined_self,
      ← List.concat_eq_append]
    exact h.names.concat (h.lookup_eq_none.mp hn)
  bound := by
    have hlen : (O.joined n env).objects.length = O.objects.length + 1 := by simp [Objects.joined]
    intro r hr
    rw [refs_joined] at hr
    rw [hlen]
    obtain hr | hr := List.mem_append.mp hr
    · exact Nat.lt_succ_of_lt (h.bound r hr)
    · rw [List.mem_singleton.mp hr]; exact Nat.lt_succ_self _
  listener := by
    have hlen : (O.joined n env).objects.length = O.objects.length + 1 := by simp [Objects.joined]
    intro r hr
    rw [hlen]
    exact Nat.lt_succ_of_lt (h.listener r hr)

theorem Linked.statuses (h : O.Linked) (statuses : Status → WeakShuffle Name) :
    { O with statuses }.Linked :=
  ⟨h.members, h.names, h.bound, h.listener⟩

end Objects

end Swim
