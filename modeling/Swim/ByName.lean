import Swim.Objects

/-!
# Swim.ByName

The heap of `Member` objects and the table of `Swim.Members`, which has one member for each name.

* `table`      — the members of the set by name, with references replaced by names.
* `Finds`      — `get` finds the object that the table has under the name.
* `step_table` — every call on members of the set does to the table what it does by name, so that
  the set is always one of `Members.Reachable`.
-/

namespace Swim

open Transition

namespace Objects

variable {O O' : Objects} {r r' : ObjectId} {n : Name} {m : Member} {env : Env}

/-! ## The table of the heap -/

/-- The members of the set by name; references become names. -/
def table (O : Objects) : Members where
  listener := O.listener.map O.name
  nextClock := O.nextClock
  localName := O.name O.localId
  nonLocal := O.nonLocal.map O.name
  members := fun name => (O.lookup name).map O.object
  statuses := O.statuses

theorem table_members : O.table.members n = (O.lookup n).map O.object := rfl

theorem Linked.table_self (h : O.Linked) (hr : r ∈ O.refs) :
    O.table.members (O.name r) = some (O.object r) := by
  rw [table_members, h.lookup_eq_some.mpr ⟨hr, rfl⟩, Option.map_some]

theorem table_editStatuses (edit : Status → WeakShuffle Name → WeakShuffle Name) :
    (O.editStatuses edit).table = O.table.editStatuses edit :=
  (List.foldl_hom table fun _ _ => rfl).symm

theorem table_refreshStatuses :
    (O.refreshStatuses r).table = O.table.refreshStatuses (O.object r) := by
  unfold refreshStatuses Members.refreshStatuses
  dsimp only
  split
  · rfl
  · exact table_editStatuses _

theorem SameSet.lookup (h : O.SameSet O') : O'.lookup n = O.lookup n := by
  have hheld : O'.held = O.held := by
    funext r
    rw [held, held, h.localId, h.nonLocal]
  rw [Objects.lookup, Objects.lookup, Objects.items, Objects.items, h.members, hheld]

theorem Linked.table_same (h : O.Linked) (hs : O.SameSet O') :
    O'.table = { O.table with
      listener := O'.listener.map O'.name
      nextClock := O'.nextClock
      members := fun name => (O.lookup name).map O'.object
      statuses := O'.statuses } := by
  have hlocal : O'.name O'.localId = O.name O.localId := by
    rw [hs.localId, hs.name _ (h.bound _ List.mem_cons_self)]
  have hnonLocal : O'.nonLocal.map O'.name = O.nonLocal.map O.name := by
    rw [hs.nonLocal]
    exact List.map_congr_left fun r hr => hs.name r (h.bound r (List.mem_cons_of_mem _ hr))
  have hmembers : (fun name => (O'.lookup name).map O'.object) =
      fun name => (O.lookup name).map O'.object := by
    funext name
    rw [hs.lookup]
  rw [table, table, hlocal, hnonLocal, hmembers]

theorem Linked.listener_names (h : O.Linked) (hs : O.SameSet O') :
    O.listener.map O'.name = O.listener.map O.name :=
  List.map_congr_left fun r hr => hs.name r (h.listener r hr)

theorem Linked.table_write (h : O.Linked) (hr : r ∈ O.refs) (hm : m.name = O.name r) :
    (O.write r m).table = O.table.put m := by
  have hsame := @sameSet_write O r m hm
  have hmembers : (fun name => (O.lookup name).map (O.write r m).object) =
      Function.update O.table.members m.name (some m) := by
    funext n
    by_cases hn : n = m.name
    · subst hn
      rw [Function.update_self, h.lookup_eq_some.mpr ⟨hr, hm.symm⟩, Option.map_some,
        object_write_self (h.bound r hr)]
    · rw [Function.update_of_ne hn, table_members]
      cases hl : O.lookup n with
      | none => rfl
      | some r' =>
        have hne : r' ≠ r := by
          rintro rfl
          exact hn ((h.lookup_eq_some.mp hl).2.symm.trans hm.symm)
        rw [Option.map_some, Option.map_some, object_write_of_ne hne]
  rw [h.table_same hsame, hmembers, Members.put]
  exact congrArg (fun l => { O.table.put m with listener := l }) (h.listener_names hsame)

theorem Linked.table_construct (h : O.Linked) {isLocal : Bool} :
    (O.construct n isLocal env).1.table = O.table := by
  have hsame := @sameSet_construct O n env isLocal
  have hmembers : (fun name => (O.lookup name).map (O.construct n isLocal env).1.object) =
      O.table.members := by
    funext name
    rw [table_members]
    cases hl : O.lookup name with
    | none => rfl
    | some r =>
      rw [Option.map_some, Option.map_some,
        object_construct_of_lt (h.bound r (h.lookup_eq_some.mp hl).1)]
  rw [h.table_same hsame, hmembers]
  exact congrArg (fun l => { O.table with listener := l }) (h.listener_names hsame)

theorem Linked.lookup_joined (h : O.Linked) (hn : O.lookup n = none) (k : Name) :
    (O.joined n env).lookup k = if k = n then some O.objects.length else O.lookup k := by
  have hj := @Linked.joined O n env h hn
  have hname : ∀ r < O.objects.length, (O.joined n env).name r = O.name r := fun r hr => by
    rw [name, object_joined_of_lt hr]; rfl
  have hself : (O.joined n env).name O.objects.length = n := by
    rw [name, object_joined_self]; rfl
  by_cases hk : k = n
  · rw [if_pos hk, hj.lookup_eq_some, refs_joined, hk]
    exact ⟨by simp, hself⟩
  · rw [if_neg hk]
    cases hl : O.lookup k with
    | some r =>
      obtain ⟨hr, hrk⟩ := h.lookup_eq_some.mp hl
      rw [hj.lookup_eq_some, refs_joined, hname r (h.bound r hr)]
      exact ⟨List.mem_append_left _ hr, hrk⟩
    | none =>
      rw [hj.lookup_eq_none, refs_joined, List.map_append, List.map_singleton, hself,
        List.map_congr_left fun r hr => hname r (h.bound r hr), List.mem_append, not_or,
        List.mem_singleton]
      exact ⟨h.lookup_eq_none.mp hl, hk⟩

theorem Linked.table_joined (h : O.Linked) (hn : O.lookup n = none) :
    (O.joined n env).table =
      ({ O.table with nonLocal := O.table.nonLocal ++ [n] } : Members).put (.new n false env) := by
  have hname : ∀ r < O.objects.length, (O.joined n env).name r = O.name r := fun r hr => by
    rw [name, object_joined_of_lt hr]; rfl
  have hlistener : O.listener.map (O.joined n env).name = O.listener.map O.name :=
    List.map_congr_left fun r hr => hname r (h.listener r hr)
  have hlocal : (O.joined n env).name O.localId = O.name O.localId :=
    hname _ (h.bound _ List.mem_cons_self)
  have hnonLocal : (O.nonLocal ++ [O.objects.length]).map (O.joined n env).name =
      O.nonLocal.map O.name ++ [n] := by
    rw [List.map_append, List.map_singleton, name, object_joined_self]
    exact congrArg (· ++ _) (List.map_congr_left fun r hr =>
      hname r (h.bound r (List.mem_cons_of_mem _ hr)))
  have hmembers : (fun k => ((O.joined n env).lookup k).map (O.joined n env).object) =
      Function.update O.table.members n (some (.new n false env)) := by
    funext k
    rw [h.lookup_joined hn]
    by_cases hk : k = n
    · subst hk
      rw [if_pos rfl, Function.update_self, Option.map_some, object_joined_self]
    · rw [if_neg hk, Function.update_of_ne hk, table_members]
      cases hl : O.lookup k with
      | none => rfl
      | some r =>
        rw [Option.map_some, Option.map_some,
          object_joined_of_lt (h.bound r (h.lookup_eq_some.mp hl).1)]
  show Members.mk (O.listener.map (O.joined n env).name) O.nextClock
    ((O.joined n env).name O.localId) ((O.nonLocal ++ [O.objects.length]).map (O.joined n env).name)
    (fun k => ((O.joined n env).lookup k).map (O.joined n env).object) O.statuses = _
  rw [hlistener, hlocal, hnonLocal, hmembers]
  rfl

/-! ## Every call does to the table what it does in the model by name -/

/-- A call that returned a member of the set, and what it does in the model by name. -/
structure Finds (p : Objects × ObjectId) (q : Members × Member) : Prop where
  linked : p.1.Linked
  table : p.1.table = q.1
  mem : p.2 ∈ p.1.refs
  object : p.1.object p.2 = q.2

theorem Linked.create (h : O.Linked) (hn : O.lookup n = none) :
    Finds (O.create n env) (O.table.create (.new n false env), .new n false env) := by
  have hj := @Linked.joined O n env h hn
  have hmem : O.objects.length ∈ (O.joined n env).refs := by rw [refs_joined]; simp
  let edit : Status → WeakShuffle Name → WeakShuffle Name := fun status shuffle =>
    if (Member.new n false env).status.overlaps status then shuffle.add n else shuffle
  have hcreate : O.create n env = ((O.joined n env).editStatuses edit, O.objects.length) := by
    simp only [Objects.create, h.register hn, object_joined_self]
    rfl
  have htable : ((O.joined n env).editStatuses edit).table =
      O.table.create (.new n false env) := by
    rw [table_editStatuses, h.table_joined hn]
    rfl
  obtain ⟨statuses, hs⟩ := @editStatuses_eq (O.joined n env) edit
  rw [hs] at hcreate htable
  rw [hcreate]
  exact ⟨hj.statuses statuses, htable, hmem, object_joined_self⟩

theorem Linked.getOrCreate (h : O.Linked) :
    Finds (O.getOrCreate n env) (O.table.getOrCreate n env) := by
  unfold Objects.getOrCreate Members.getOrCreate
  rw [table_members]
  cases hl : O.lookup n with
  | none => exact h.create hl
  | some r => exact ⟨h, rfl, (h.lookup_eq_some.mp hl).1, rfl⟩

theorem Finds.write {p : Objects × ObjectId} {q : Members × Member} (h : Finds p q)
    (hm : m.name = q.2.name) : Finds (p.1.write p.2 m, p.2) (q.1.put m, m) := by
  have hname : m.name = p.1.name p.2 := by rw [hm, name, h.object]
  have hsame := @sameSet_write p.1 p.2 m hname
  refine ⟨h.linked.same hsame fun _ => Or.inl, ?_, ?_, object_write_self (h.linked.bound _ h.mem)⟩
  · rw [h.linked.table_write h.mem hname, h.table]
  · rw [hsame.refs]; exact h.mem

theorem Linked.get (h : O.Linked) {validity : Option Bytes} :
    Finds (O.get n validity env) (O.table.get n validity env) := by
  have hfound := @Linked.getOrCreate O n env h
  unfold Objects.get Members.get
  cases validity with
  | none => exact hfound
  | some v =>
    dsimp only
    rw [hfound.object]
    split
    · exact hfound.write rfl
    · exact hfound

/-- What may be reported: the set is the same, and nobody but `r` is told of. -/
structure Reports (O O' : Objects) (r : ObjectId) : Prop where
  same : O.SameSet O'
  listener : ∀ r' ∈ O'.listener, r' ∈ O.listener ∨ r' = r

theorem Linked.reports (h : O.Linked) (hr : r < O.objects.length) (hO : O.Reports O' r) :
    O'.Linked :=
  h.same hO.same fun r' hr' => (hO.listener r' hr').imp_right fun heq => by rw [heq]; exact hr

theorem reports_write (hm : m.name = O.name r) : O.Reports (O.write r m) r :=
  ⟨sameSet_write hm, fun _ => Or.inl⟩

theorem commit_eq (updated : Bool) : ∃ statuses, O.commit updated r m =
    { O.write r m with
      statuses
      listener := if updated then O.listener ++ [r] else O.listener
      nextClock := if m.clock ≥ O.nextClock then m.clock + 1 else O.nextClock } := by
  obtain ⟨statuses, hs⟩ := @refreshStatuses_eq (O.write r m) r
  unfold commit
  dsimp only
  rw [hs]
  cases updated with
  | false =>
    rw [if_neg Bool.false_ne_true, if_neg Bool.false_ne_true]
    exact ⟨O.statuses, by split <;> rfl⟩
  | true =>
    rw [if_pos rfl, if_pos rfl]
    exact ⟨statuses, by split <;> rfl⟩

theorem reports_commit (updated : Bool) (hm : m.name = O.name r) :
    O.Reports (O.commit updated r m) r := by
  obtain ⟨statuses, hc⟩ := @commit_eq O r m updated
  have hw := @sameSet_write O r m hm
  rw [hc]
  refine ⟨⟨hw.localId, hw.nonLocal, hw.members, hw.objects, hw.name⟩, fun r' hr' => ?_⟩
  dsimp only at hr'
  cases updated with
  | false => exact Or.inl hr'
  | true => simpa using hr'

theorem table_notify : (O.notify r).table =
    { O.table with listener := O.table.listener ++ [O.name r] } := by
  show Members.mk ((O.listener ++ [r]).map O.name) O.nextClock (O.name O.localId)
    (O.nonLocal.map O.name) (fun name => (O.lookup name).map O.object) O.statuses = _
  rw [List.map_append]
  rfl

theorem Linked.table_commit (h : O.Linked) (hr : r ∈ O.refs) (updated : Bool)
    (hm : m.name = O.name r) : (O.commit updated r m).table = O.table.commit updated m := by
  have hself : (O.write r m).object r = m := object_write_self (h.bound r hr)
  have hput := h.table_write hr hm
  have hname : ((O.write r m).refreshStatuses r).name r = m.name := by
    obtain ⟨statuses, hs⟩ := @refreshStatuses_eq (O.write r m) r
    rw [hs]
    exact congrArg Member.name hself
  have hnotify : (((O.write r m).refreshStatuses r).notify r).table =
      ((O.table.put m).refreshStatuses m).notify m := by
    rw [table_notify, table_refreshStatuses, hself, hput, hname]
    rfl
  have hbump : ∀ O' : Objects, (if m.clock ≥ O.nextClock then
      { O' with nextClock := m.clock + 1 } else O').table = if m.clock ≥ O.table.nextClock then
        { O'.table with nextClock := m.clock + 1 } else O'.table := by
    intro O'
    have hnext : O.table.nextClock = O.nextClock := rfl
    rw [hnext]
    split <;> rfl
  unfold Objects.commit Members.commit
  dsimp only
  rw [hbump]
  cases updated with
  | false => rw [if_neg Bool.false_ne_true, if_neg Bool.false_ne_true, hput]
  | true => rw [if_pos rfl, if_pos rfl, hnotify]

section Update

variable {source : Option ObjectId} {clock : Int} {status : Option Status}
  {metadata : Option Metadata}

theorem stage_name {e : Raised Member}
    (h : (O.object r).stage clock O.nextClock status metadata = .error e) :
    e.state.name = O.name r := by
  obtain ⟨pc, ps, pm, hstage⟩ := (O.object r).stage_after clock O.nextClock status metadata
  rw [h, Py.after_error] at hstage
  rw [hstage]
  rfl

theorem save_name {staged : Member}
    (h : (O.object r).stage clock O.nextClock status metadata = .ok staged) :
    (staged.save (source.map O.object) O.nextClock env.now).2.name = O.name r := by
  obtain ⟨pc, ps, pm, hstage⟩ := (O.object r).stage_after clock O.nextClock status metadata
  rw [h, Py.after_ok] at hstage
  rw [(Member.save_keeps _ _ _ _).1.name, hstage]
  rfl

theorem reports_update :
    O.Reports (O._update r source clock status metadata env).after r := by
  unfold _update
  dsimp only
  cases hs : (O.object r).stage clock O.nextClock status metadata with
  | error e => exact reports_write (stage_name hs)
  | ok staged => exact reports_commit _ (save_name hs)

theorem Linked.table_update (h : O.Linked) (hr : r ∈ O.refs) :
    (O._update r source clock status metadata env).inside Objects.table =
      O.table._update (O.object r) (source.map O.object) clock status metadata env := by
  have hnext : O.table.nextClock = O.nextClock := rfl
  unfold Objects._update Members._update
  dsimp only
  rw [hnext]
  cases hs : (O.object r).stage clock O.nextClock status metadata with
  | error e =>
    refine congrArg Except.error ?_
    rw [h.table_write hr (stage_name hs)]
  | ok staged =>
    refine congrArg Except.ok ?_
    exact h.table_commit hr _ (save_name hs)

theorem Linked.update_after (h : O.Linked) (hr : r ∈ O.refs) :
    (O.table._update (O.object r) (source.map O.object) clock status metadata env).after =
      (O._update r source clock status metadata env).after.table := by
  rw [← h.table_update hr, Py.after_inside]

end Update

theorem reports_ackGossip {source : ObjectId} {clock : Int} :
    O.Reports (O.ackGossip r source clock).after source := by
  unfold ackGossip
  split
  · exact reports_write rfl
  · exact ⟨.refl O, fun _ => Or.inl⟩

theorem Linked.table_ackGossip (h : O.Linked) {source : ObjectId} (hs : source ∈ O.refs)
    {clock : Int} : (O.ackGossip r source clock).inside Objects.table =
      O.table.ackGossip (O.object r) (O.object source) clock := by
  have hnext : O.table.nextClock = O.nextClock := rfl
  unfold Objects.ackGossip Members.ackGossip
  dsimp only
  rw [hnext]
  split
  · refine congrArg Except.ok ?_
    exact h.table_write hs rfl
  · rfl

theorem Linked.ackGossip_after (h : O.Linked) {source : ObjectId} (hs : source ∈ O.refs)
    {clock : Int} : (O.table.ackGossip (O.object r) (O.object source) clock).after =
      (O.ackGossip r source clock).after.table := by
  rw [← h.table_ackGossip hs, Py.after_inside]

/-! ## Runs -/

/-- **Every call** keeps the members linked, also a call about other objects. -/
theorem Linked.step (h : O.Linked) {l : Op × Env} (hs : O.step l = some O') : O'.Linked := by
  rw [Objects.step, Option.ite_none_right_eq_some] at hs
  obtain ⟨hargs, hs⟩ := hs
  obtain ⟨op, env⟩ := l
  cases op with
  | construct name isLocal =>
    cases hs
    exact h.same sameSet_construct fun _ => Or.inl
  | get name validity => cases hs; exact h.get.linked
  | update member newStatus newMetadata =>
    cases hs
    exact h.reports (hargs _ List.mem_cons_self) reports_update
  | apply member source clock status metadata =>
    cases hs
    exact h.reports (hargs _ List.mem_cons_self) reports_update
  | ackGossip member source clock =>
    cases hs
    exact h.reports (hargs _ (List.mem_cons_of_mem _ List.mem_cons_self)) reports_ackGossip

/-- The call as one of the model by name, if the set is called at all. -/
def Op.call (O : Objects) : Op → Option Members.Op
  | construct _ _ => none
  | get name validity => some (.get name validity)
  | update member newStatus newMetadata => some (.update (O.name member) newStatus newMetadata)
  | apply member source clock status metadata =>
    some (.apply (O.name member) (O.name source) clock status metadata)
  | ackGossip member source clock => some (.ackGossip (O.name member) (O.name source) clock)

def Own (O : Objects) (l : Op × Env) : Prop := ∀ r ∈ l.1.args, r ∈ O.refs

/-- **The model by name** does to the table what the call does to the objects. -/
theorem Linked.step_table (h : O.Linked) {l : Op × Env} (hown : O.Own l)
    (hs : O.step l = some O') :
    run Members.step O.table ((l.1.call O).toList.map fun op => (op, l.2)) = some O'.table := by
  rw [Objects.step, Option.ite_none_right_eq_some] at hs
  obtain ⟨-, hs⟩ := hs
  obtain ⟨op, env⟩ := l
  cases op with
  | construct name isLocal =>
    cases hs
    exact congrArg some h.table_construct.symm
  | get name validity =>
    cases hs
    refine (run_singleton _ _).trans (congrArg some ?_)
    exact h.get.table.symm
  | update member newStatus newMetadata =>
    cases hs
    have hr : member ∈ O.refs := hown _ List.mem_cons_self
    refine (run_singleton _ _).trans ?_
    show (O.table.members (O.name member)).map _ = _
    rw [h.table_self hr]
    exact congrArg some
      (@Linked.update_after O member env none O.nextClock newStatus newMetadata h hr)
  | apply member source clock status metadata =>
    cases hs
    have hr : member ∈ O.refs := hown _ List.mem_cons_self
    have hsrc : source ∈ O.refs := hown _ (List.mem_cons_of_mem _ List.mem_cons_self)
    refine (run_singleton _ _).trans ?_
    show (O.table.members (O.name member)).bind _ = _
    rw [h.table_self hr, Option.bind_some, h.table_self hsrc]
    exact congrArg some
      (@Linked.update_after O member env (some source) clock (some status) metadata h hr)
  | ackGossip member source clock =>
    cases hs
    have hr : member ∈ O.refs := hown _ List.mem_cons_self
    have hsrc : source ∈ O.refs := hown _ (List.mem_cons_of_mem _ List.mem_cons_self)
    refine (run_singleton _ _).trans ?_
    show (O.table.members (O.name member)).bind _ = _
    rw [h.table_self hr, Option.bind_some, h.table_self hsrc]
    exact congrArg some (@Linked.ackGossip_after O member h source hsrc clock)

section Init

variable (config : Config) (env : Env)

theorem linked_start : (start config env).Linked where
  members := rfl
  names := List.nodup_singleton _
  bound := by simp [refs, start]
  listener := by simp [start]

theorem table_start : (start config env).table =
    { listener := [], nextClock := 1, localName := config.localName, nonLocal := []
      members := Function.update (fun _ => none) config.localName
        (some (.new config.localName true env))
      statuses := fun _ => .empty } := by
  have hmembers : (fun n => ((start config env).lookup n).map (start config env).object) =
      Function.update (fun _ => none) config.localName
        (some (.new config.localName true env)) := by
    funext n
    by_cases hn : n = config.localName
    · have hlookup : (start config env).lookup config.localName = some 0 :=
        (linked_start config env).lookup_eq_some.mpr ⟨List.mem_cons_self, rfl⟩
      rw [hn, hlookup, Function.update_self]
      rfl
    · rw [(linked_start config env).lookup_eq_none.mpr, Function.update_of_ne hn]
      · rfl
      · exact fun hmem => hn (List.mem_singleton.mp hmem)
  rw [table, hmembers]
  rfl

theorem linked_load :
    (load config env).Linked ∧ (load config env).table = Members.load config env := by
  have hfold : ∀ (peers : List Name) (O : Objects), O.Linked →
      (peers.foldl (fun O peer => (O.get peer none env).1) O).Linked ∧
        (peers.foldl (fun O peer => (O.get peer none env).1) O).table =
          peers.foldl (fun M peer => (M.get peer none env).1) O.table := by
    intro peers
    induction peers with
    | nil => exact fun O h => ⟨h, rfl⟩
    | cons peer peers ih =>
      intro O h
      have hget := @Linked.get O peer env h none
      rw [List.foldl_cons, List.foldl_cons, ← hget.table]
      exact ih _ hget.linked
  obtain ⟨hlinked, htable⟩ := hfold config.peers (start config env) (linked_start config env)
  rw [table_start] at htable
  exact ⟨hlinked, htable⟩

theorem linked_init : (init config env).after.Linked ∧
    (init config env).after.table = (Members.init config env).after := by
  obtain ⟨hlinked, htable⟩ := linked_load config env
  have hlocal : (load config env).localId ∈ (load config env).refs := List.mem_cons_self
  refine ⟨hlinked.reports (hlinked.bound _ hlocal) reports_update, ?_⟩
  have hmember : (Members.load config env).localMember =
      (load config env).object (load config env).localId := by
    rw [← htable]
    show ((load config env).table.members ((load config env).name _)).getD default = _
    rw [hlinked.table_self hlocal, Option.getD_some]
  rw [Members.init, hmember, ← htable]
  exact (@Linked.update_after (load config env) _ env none _ _ _ hlinked hlocal).symm

end Init

theorem linked_run {config : Config} {env₀ : Env} {ls : List (Op × Env)}
    (h : run step (init config env₀).after ls = some O) : O.Linked :=
  (always_of_along (P := Linked) (linked_init config env₀).1 (along_true _ ls)
    fun _ _ _ h' _ hs => h'.step hs).last h

/-- **One object for each name.** As long as only members of the set are updated, the set is the
table by name that the same calls lead to. -/
theorem table_reachable {config : Config} {env₀ : Env} {ls : List (Op × Env)}
    (hown : Along step Own (init config env₀).after ls)
    (h : run step (init config env₀).after ls = some O) : O.table.Reachable := by
  obtain ⟨hlinked, htable⟩ := linked_init config env₀
  refine ((always_of_along (P := fun O : Objects => O.Linked ∧ O.table.Reachable) ⟨hlinked, ?_⟩
    hown fun O l O' hO hl hs => ⟨hO.1.step hs, ?_⟩).last h).2
  · rw [htable]; exact Members.reachable_init config env₀
  · exact hO.2.run (along_true _ _) (hO.1.step_table hl hs)

end Objects

end Swim
