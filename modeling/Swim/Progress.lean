import Swim.Aggregates
import Swim.Statuses

/-!
# Swim.Progress

Whether the loop of `Members.find` can finish.

The number of members to collect is read off the set view of a shuffle, and the draws are from its
list. The list is as long as the set is large (`Sized`), but `_finalize` may take out a wrong slot:
then a reference to a discarded member is left, and the member is there twice once it is added
again. `Distinct` says that this has not happened.

* `add_distinct_iff`, `Distinct.discard` — removals keep `Distinct`, and an addition does exactly
  if no reference to the element is left.
* `canFinish_iff` — `find` can always finish exactly if each list has as many different members as
  the set view.
* `finish_iff`    — in a run, exactly if no call moves a member to a status in whose list a
  reference to it is left.
-/

namespace Swim

open Transition

namespace WeakShuffle

section Lists

variable {α : Type} [DecidableEq α] {s : WeakShuffle α} {a b : α} {r : Ref}

def drawn (s : WeakShuffle α) : List (Option α) := s.values.map s.deref

def Distinct (s : WeakShuffle α) : Prop := s.drawn.Nodup

/-- As many slots as elements in the set, and all references alive. -/
structure Sized (s : WeakShuffle α) : Prop where
  length : s.values.length = s.iter.card
  live : ∀ r ∈ s.values, ∃ a, s.deref r = some a
  points : ∀ a r, s.weakVals.lookup a = some r → s.deref r = some a
  indexed : ∀ a r, s.weakVals.lookup a = some r → ∃ i, s.indexes.lookup r = some i

theorem sized_empty : (empty : WeakShuffle α).Sized where
  length := rfl
  live := by simp [empty]
  points := by simp [empty]
  indexed := by simp [empty]

/-! ### Additions -/

theorem iter_add : (s.add b).iter = insert b s.iter := by
  ext a
  rw [mem_iter_add, Finset.mem_insert]

theorem add_self (hb : b ∈ s.iter) : s.add b = s := if_pos (mem_iter.mp hb)

theorem add_new (hb : b ∉ s.iter) : s.add b =
    { refs := s.refs ++ [some b]
      weakVals := s.weakVals.insert b s.refs.length
      weakValsRev := s.weakValsRev.insert s.refs.length b
      indexes := s.indexes.insert s.refs.length s.values.length
      values := s.values ++ [s.refs.length] } := if_neg (mt mem_iter.mpr hb)

/-- Old references keep their targets. -/
theorem add_deref (hb : b ∉ s.iter) (hr : s.deref r = some a) : (s.add b).deref r = some a := by
  rw [add_new hb, deref]
  dsimp only
  rw [List.getElem?_append_left (lt_of_deref hr)]
  exact hr

theorem add_deref_new (hb : b ∉ s.iter) : (s.add b).deref s.refs.length = some b := by
  rw [add_new hb, deref]
  simp

theorem Sized.drawn_add (h : s.Sized) (hb : b ∉ s.iter) :
    (s.add b).drawn = s.drawn ++ [some b] := by
  have hold : s.values.map (s.add b).deref = s.drawn := by
    refine List.map_congr_left fun r hr => ?_
    obtain ⟨a, ha⟩ := h.live r hr
    rw [add_deref hb ha, ha]
  have hvalues : (s.add b).values = s.values ++ [s.refs.length] := by rw [add_new hb]
  rw [WeakShuffle.drawn, hvalues, List.map_append, hold, List.map_singleton, add_deref_new hb]

theorem Sized.add (h : s.Sized) (b : α) : (s.add b).Sized := by
  by_cases hb : b ∈ s.iter
  · rw [add_self hb]
    exact h
  · have hnew := add_new hb
    refine ⟨?_, fun r hr => ?_, fun a r ha => ?_, fun a r ha => ?_⟩
    · rw [iter_add, Finset.card_insert_of_notMem hb, ← h.length, hnew]
      simp
    · rw [hnew] at hr
      rcases List.mem_append.mp hr with hr | hr
      · obtain ⟨a, ha⟩ := h.live r hr
        exact ⟨a, add_deref hb ha⟩
      · rw [List.mem_singleton.mp hr]
        exact ⟨b, add_deref_new hb⟩
    · rw [hnew] at ha
      by_cases hab : a = b
      · subst hab
        rw [Finmap.lookup_insert] at ha
        cases ha
        exact add_deref_new hb
      · rw [Finmap.lookup_insert_of_ne _ hab] at ha
        exact add_deref hb (h.points a r ha)
    · rw [hnew] at ha ⊢
      by_cases hab : a = b
      · subst hab
        rw [Finmap.lookup_insert] at ha
        cases ha
        exact ⟨_, Finmap.lookup_insert _⟩
      · rw [Finmap.lookup_insert_of_ne _ hab] at ha
        have hlt := lt_of_deref (h.points a r ha)
        rw [Finmap.lookup_insert_of_ne _ (Nat.ne_of_lt hlt)]
        exact h.indexed a r ha

/-- **An addition** puts an element into a second slot exactly if a reference to it was left. -/
theorem Sized.add_distinct_iff (h : s.Sized) (hs : s.Distinct) (hb : b ∉ s.iter) :
    (s.add b).Distinct ↔ some b ∉ s.drawn := by
  rw [Distinct, h.drawn_add hb, ← List.concat_eq_append, List.nodup_concat]
  exact and_iff_left hs

/-! ### Removals -/

omit [DecidableEq α] in
theorem finalize_indexes_ne {q : Ref} (h : q ≠ r) :
    (s.finalize r).indexes.lookup q = s.indexes.lookup q := by
  unfold finalize
  split
  · rfl
  · exact Finmap.lookup_erase_ne h

omit [DecidableEq α] in
@[simp] theorem finalize_refs : (s.finalize r).refs = s.refs := by
  unfold finalize
  split <;> rfl

@[simp] theorem discard_deref (q : Ref) : (s.discard a).deref q = s.deref q := by
  unfold discard
  split
  · rfl
  · simp [deref]

theorem iter_discard : (s.discard a).iter = s.iter.erase a := by
  ext b
  rw [mem_iter_discard, Finset.mem_erase]

theorem Sized.discard_values (h : s.Sized) (ha : a ∈ s.iter) :
    ∃ l q i, s.values = l ++ [q] ∧ (s.discard a).values = l.set i q := by
  obtain ⟨r, hr⟩ := mem_iter_iff.mp ha
  obtain ⟨i, hi⟩ := h.indexed a r hr
  have hne : s.values ≠ [] := by
    rw [← List.length_pos_iff, h.length, Finset.card_pos]
    exact ⟨a, ha⟩
  have hl := (List.dropLast_append_getLast hne).symm
  refine ⟨_, _, i, hl, ?_⟩
  rw [discard_eq hr, @finalize_eq _ (s.unlinked a r) r _ _ i hi hl]

theorem discard_self (ha : a ∉ s.iter) : s.discard a = s := by
  cases hl : s.weakVals.lookup a with
  | none => simp only [discard, hl]
  | some r => exact absurd (mem_iter_iff.mpr ⟨r, hl⟩) ha

theorem Sized.mem_discard_values (h : s.Sized) {q : Ref} (hq : q ∈ (s.discard a).values) :
    q ∈ s.values := by
  by_cases ha : a ∈ s.iter
  · obtain ⟨l, p, i, hl, hd⟩ := h.discard_values ha
    rw [hd] at hq
    rw [hl, List.mem_append, List.mem_singleton]
    exact List.mem_or_eq_of_mem_set hq
  · rwa [discard_self ha] at hq

theorem Sized.discard (h : s.Sized) (a : α) : (s.discard a).Sized := by
  by_cases ha : a ∈ s.iter
  · obtain ⟨l, p, i, hl, hd⟩ := h.discard_values ha
    have hlength := h.length
    have hcard := Finset.card_erase_add_one ha
    rw [hl, List.length_append, List.length_singleton] at hlength
    obtain ⟨r, hr⟩ := mem_iter_iff.mp ha
    refine ⟨?_, fun q hq => ?_, fun b q hq => ?_, fun b q hq => ?_⟩
    · rw [hd, List.length_set, iter_discard]
      omega
    · rw [discard_deref]
      exact h.live q (h.mem_discard_values hq)
    · rw [discard_weakVals] at hq
      by_cases hba : b = a
      · subst hba; rw [Finmap.lookup_erase] at hq; cases hq
      · rw [Finmap.lookup_erase_ne hba] at hq
        rw [discard_deref]
        exact h.points b q hq
    · rw [discard_weakVals] at hq
      by_cases hba : b = a
      · subst hba; rw [Finmap.lookup_erase] at hq; cases hq
      · rw [Finmap.lookup_erase_ne hba] at hq
        have hqr : q ≠ r := by
          rintro rfl
          exact hba (Option.some.inj ((h.points b q hq).symm.trans (h.points a q hr)))
        rw [discard_eq hr, finalize_indexes_ne hqr]
        exact h.indexed b q hq
  · rw [discard_self ha]
    exact h

/-- **A removal** may leave a reference to the element, but brings none twice. -/
theorem Sized.discard_distinct (h : s.Sized) (hs : s.Distinct) (a : α) :
    (s.discard a).Distinct := by
  by_cases ha : a ∈ s.iter
  · obtain ⟨l, q, i, hl, hd⟩ := h.discard_values ha
    have hderef : (s.discard a).deref = s.deref := funext discard_deref
    rw [Distinct, WeakShuffle.drawn, hl, List.map_append, List.map_singleton,
      ← List.concat_eq_append, List.nodup_concat] at hs
    rw [Distinct, WeakShuffle.drawn, hderef, hd, List.map_set]
    exact hs.2.set hs.1
  · rw [discard_self ha]
    exact hs

end Lists

variable {s : WeakShuffle Name} {n : Name}

theorem mem_drawable_iff : n ∈ s.drawable ↔ some n ∈ s.drawn := by
  rw [drawable, List.mem_toFinset, List.mem_filterMap, drawn, List.mem_map]

theorem Sized.drawable_add {x : Name} (h : s.Sized) (hn : n ∈ (s.add x).drawable) :
    n = x ∨ n ∈ s.drawable := by
  by_cases hx : x ∈ s.iter
  · rw [add_self hx] at hn
    exact Or.inr hn
  · rw [mem_drawable_iff, h.drawn_add hx, List.mem_append, List.mem_singleton,
      ← mem_drawable_iff] at hn
    exact hn.symm.imp_left Option.some.inj

theorem Sized.drawable_discard {x : Name} (h : s.Sized) (hn : n ∈ (s.discard x).drawable) :
    n ∈ s.drawable := by
  rw [mem_drawable_iff, drawn, List.mem_map] at hn ⊢
  obtain ⟨r, hr, hd⟩ := hn
  exact ⟨r, h.mem_discard_values hr, by rw [← hd, discard_deref]⟩

/-- The list of a shuffle has as many different elements as the set exactly if none is there
twice. -/
theorem Sized.distinct_iff (h : s.Sized) : s.Distinct ↔ s.iter.card ≤ s.drawable.card := by
  have himage : s.drawable.map Function.Embedding.some = s.drawn.toFinset := by
    ext o
    rw [Finset.mem_map, List.mem_toFinset]
    constructor
    · rintro ⟨n, hn, rfl⟩
      exact mem_drawable_iff.mp hn
    · intro ho
      obtain ⟨r, hr, rfl⟩ := List.mem_map.mp ho
      obtain ⟨n, hn⟩ := h.live r hr
      rw [hn] at ho
      exact ⟨n, mem_drawable_iff.mpr ho, hn.symm⟩
  have hlength : s.drawn.length = s.iter.card := by rw [drawn, List.length_map, h.length]
  have hle := s.drawn.toFinset_card_le
  have hcard : s.drawable.card = s.drawn.toFinset.card := by rw [← himage, Finset.card_map]
  rw [hcard, ← hlength]
  constructor
  · intro hs
    rw [List.toFinset_card_of_nodup hs]
  · intro hge
    exact Multiset.coe_nodup.mp (Multiset.toFinset_card_eq_card_iff_nodup.mp (le_antisymm hle hge))

end WeakShuffle

namespace Members

variable {M M' : Members} {n : Name} {m m' : Member} {l : Op × Env}

/-! ## The loop -/

def findStep (s : WeakShuffle Name) (k : Nat) (results : Finset Name) (draw : Nat) :
    Option (Finset Name) :=
  if results.card < k then
    match s.choice draw with
    | .error _ => none
    | .ok member => some (insert member results)
  else none

theorem findStep_eq_some {s : WeakShuffle Name} {k draw : Nat} {results r : Finset Name} :
    findStep s k results draw = some r ↔
      results.card < k ∧ ∃ n, s.choice draw = .ok n ∧ r = insert n results := by
  unfold findStep
  split
  · rename_i hk
    cases s.choice draw with
    | error e => simp
    | ok n => simp [hk, eq_comm]
  · rename_i hk
    simp [hk]

theorem findLoop_run {s : WeakShuffle Name} {k : Nat} {draws : List Nat} {results r : Finset Name}
    (h : run (findStep s k) results draws = some r) (more : List Nat) :
    findLoop s k (draws ++ more) results = findLoop s k more r := by
  induction draws generalizing results with
  | nil => cases h; rfl
  | cons draw draws ih =>
    obtain ⟨r₁, h₁, hrest⟩ := Option.bind_eq_some_iff.mp h
    obtain ⟨hk, n, hn, rfl⟩ := findStep_eq_some.mp h₁
    rw [List.cons_append, findLoop, if_pos hk]
    simp only [hn]
    exact ih hrest

def numResults (M : Members) (count : Nat) (status : Status) (exclude : Finset Name) : Nat :=
  min ((M.statuses status).len -
    (exclude.filter fun member => (M.statuses status).contains member).card) count

/-- `find` goes on where the iterations lead. -/
theorem find_run {count : Nat} {status : Status} {exclude : Finset Name} {draws : List Nat}
    {results : Finset Name}
    (h : run (findStep (M.statuses status) (M.numResults count status exclude)) ∅ draws =
      some results) (more : List Nat) : M.find count status exclude (draws ++ more) =
        findLoop (M.statuses status) (M.numResults count status exclude) more results :=
  findLoop_run h more

/-- In every iteration, `choice` can return a member that was not collected yet. -/
def CanFinish (M : Members) : Prop :=
  ∀ (count : Nat) (status : Status) (exclude : Finset Name) (draws : List Nat)
    (results : Finset Name),
    run (findStep (M.statuses status) (M.numResults count status exclude)) ∅ draws =
      some results → results.card < M.numResults count status exclude →
    ∃ draw n, (M.statuses status).choice draw = .ok n ∧ n ∉ results

theorem run_findStep_subset {s : WeakShuffle Name} {k : Nat} {draws : List Nat}
    {results : Finset Name} (h : run (findStep s k) ∅ draws = some results) :
    results ⊆ s.drawable := by
  refine (always_of_along (P := fun results => results ⊆ s.drawable) (Finset.empty_subset _)
    (along_true _ draws) fun results draw r hsub _ hs => ?_).last h
  obtain ⟨-, n, hn, rfl⟩ := findStep_eq_some.mp hs
  exact Finset.insert_subset (WeakShuffle.mem_drawable.mpr ⟨draw, hn⟩) hsub

theorem exists_run_findStep {s : WeakShuffle Name} {k : Nat} (names : List Name)
    (hn : ∀ n ∈ names, n ∈ s.drawable) {results : Finset Name}
    (hk : results.card + names.length ≤ k) :
    ∃ draws, run (findStep s k) results draws = some (results ∪ names.toFinset) := by
  induction names generalizing results with
  | nil => exact ⟨[], by simp [run]⟩
  | cons n names ih =>
    obtain ⟨draw, hdraw⟩ := WeakShuffle.mem_drawable.mp (hn n List.mem_cons_self)
    have hcard := Finset.card_insert_le n results
    rw [List.length_cons] at hk
    obtain ⟨draws, hdraws⟩ := @ih (fun x hx => hn x (List.mem_cons_of_mem _ hx)) (insert n results)
      (by omega)
    refine ⟨draw :: draws, ?_⟩
    have hstep : findStep s k results draw = some (insert n results) :=
      findStep_eq_some.mpr ⟨by omega, n, hdraw, rfl⟩
    rw [run_cons, hstep, Option.bind_some, hdraws, List.toFinset_cons, Finset.insert_union,
      Finset.union_insert]

/-- **`find` can always finish** exactly if each list has enough different members. -/
theorem canFinish_iff :
    M.CanFinish ↔ ∀ status, (M.statuses status).iter.card ≤ (M.statuses status).drawable.card := by
  constructor
  · intro h status
    by_contra hlt
    rw [not_le] at hlt
    -- all of them are wanted, and all that can be drawn are collected
    have hk : M.numResults (M.statuses status).iter.card status ∅ =
        (M.statuses status).iter.card := by
      simp [numResults, WeakShuffle.len]
    obtain ⟨draws, hdraws⟩ := @exists_run_findStep (M.statuses status)
      (M.numResults (M.statuses status).iter.card status ∅) (M.statuses status).drawable.toList
      (fun n hn => Finset.mem_toList.mp hn) ∅ (by
        rw [hk, Finset.card_empty, Finset.length_toList]; omega)
    rw [Finset.toList_toFinset, Finset.empty_union] at hdraws
    obtain ⟨draw, n, hn, hnot⟩ := h _ status ∅ draws _ hdraws (by rw [hk]; exact hlt)
    exact hnot (WeakShuffle.mem_drawable.mpr ⟨draw, hn⟩)
  · intro h count status exclude draws results hrun hlt
    have hsub := run_findStep_subset hrun
    have hle : M.numResults count status exclude ≤ (M.statuses status).iter.card :=
      le_trans (min_le_left _ _) (Nat.sub_le _ _)
    have hcard : results.card < (M.statuses status).drawable.card := by
      have := h status
      omega
    obtain ⟨n, hn, hnot⟩ := Finset.exists_mem_notMem_of_card_lt_card hcard
    obtain ⟨draw, hdraw⟩ := WeakShuffle.mem_drawable.mp hn
    exact ⟨draw, n, hdraw, hnot⟩

/-! ## Along a run -/

/-- Which members the lists refer to, and how long they are. -/
structure Stocked (M : Members) : Prop where
  ordered : M.Ordered
  sized : ∀ t, (M.statuses t).Sized
  known : ∀ t n, n ∈ (M.statuses t).drawable → (M.members n).isSome = true

theorem Stocked.canFinish_iff (h : M.Stocked) :
    M.CanFinish ↔ ∀ t, (M.statuses t).Distinct :=
  Members.canFinish_iff.trans (forall_congr' fun t => (h.sized t).distinct_iff.symm)

def Reshelved (M M' : Members) (t : Status) : Prop :=
  M'.statuses t = M.statuses t ∨ ∃ x, (M'.members x).isSome = true ∧
    (M'.statuses t = (M.statuses t).add x ∨ M'.statuses t = (M.statuses t).discard x)

theorem reshelved_update (m : Member) (source : Option Member) (clock : Int)
    (status : Option Status) (metadata : Option Metadata) (env : Env) (t : Status) :
    M.Reshelved (M._update m source clock status metadata env).after t := by
  obtain ⟨m', -, ⟨-, hM⟩ | ⟨-, hM⟩ | hM⟩ := _update_after M m source clock status metadata env
  · rw [hM]
    exact Or.inl rfl
  · rw [hM]
    exact Or.inl (by rw [commit_statuses, if_neg (by simp)])
  · rw [hM]
    have hentry : ((M.commit true m').members m'.name).isSome = true := by
      rw [commit_members, Function.update_self]; rfl
    cases hl : m'.isLocal with
    | true => exact Or.inl (by rw [commit_statuses, if_neg (by simp [hl])])
    | false =>
      refine Or.inr ⟨m'.name, hentry, ?_⟩
      rw [commit_statuses, if_pos ⟨rfl, hl⟩]
      cases m'.status.overlaps t with
      | true => exact Or.inl rfl
      | false => exact Or.inr rfl

theorem step_reshelved (h : M.Keyed) (hs : M.step l = some M') (t : Status) :
    M.Reshelved M' t := by
  obtain ⟨name, validity, rfl⟩ | ⟨m, source, clock, status, metadata, -, rfl⟩ |
    ⟨member, source, clock, -, rfl⟩ := step_inv h hs
  · rw [Reshelved, get_statuses]
    split
    · exact Or.inl rfl
    · by_cases ho : Status.offline.overlaps t = true
      · exact Or.inr ⟨name, by rw [h.get_self]; rfl, Or.inl (if_pos ho)⟩
      · exact Or.inl (if_neg ho)
  · exact reshelved_update m source clock status metadata l.2 t
  · by_cases hc : clock ≤ M.nextClock
    · rw [ackGossip_ok hc]; exact Or.inl rfl
    · rw [ackGossip_error hc]; exact Or.inl rfl

theorem step_isLocal (h : M.Keyed) (hs : M.step l = some M') (hm : M.members n = some m) :
    ∃ m', M'.members n = some m' ∧ m'.isLocal = m.isLocal := by
  obtain ⟨-, hkeeps⟩ | ⟨x, source, clock, status, metadata, -, hx, rfl⟩ := step_cases h hs
  · obtain ⟨m', hm', _, _, rfl⟩ := hkeeps.entry n m hm
    exact ⟨_, hm', rfl⟩
  · obtain ⟨x', hkept, hmem⟩ := _update_members M x source clock status metadata l.2
    rw [hmem]
    by_cases hn : n = x.name
    · subst hn
      cases hx.symm.trans hm
      exact ⟨x', Function.update_self _ _ _, hkept.isLocal⟩
    · exact ⟨m, by rw [Function.update_of_ne hn]; exact hm, rfl⟩

def MovesTo (M : Members) (op : Op) (n : Name) (t : Status) : Prop :=
  ∃ m s, M.members n = some m ∧ m.isLocal = false ∧ M.HeedsAt op n m s ∧
    m.status.overlaps t = false ∧ (m.status.toward s).overlaps t = true

theorem movesTo_iff (h : M.Ordered) (hs : M.step l = some M') (hm : M.members n = some m)
    (t : Status) :
    M.MovesTo l.1 n t ↔ n ∉ (M.statuses t).iter ∧ n ∈ (M'.statuses t).iter := by
  obtain ⟨m', hm', hto, hkeep⟩ := step_status h hs hm
  obtain ⟨_, hm'', hlocal⟩ := step_isLocal h.keyed hs hm
  cases hm'.symm.trans hm''
  have hbefore : n ∈ (M.statuses t).iter ↔ m.isLocal = false ∧ m.status.overlaps t = true := by
    rw [h.shelved t n, hm]
    simp
  have hafter : n ∈ (M'.statuses t).iter ↔ m.isLocal = false ∧ m'.status.overlaps t = true := by
    rw [(h.step hs).shelved t n, hm', ← hlocal]
    simp
  rw [hbefore, hafter]
  constructor
  · rintro ⟨x, s, hx, hl, hheeds, hnot, hover⟩
    cases hm.symm.trans hx
    rw [hto s hheeds, hnot]
    exact ⟨by simp, hl, hover⟩
  · rintro ⟨hnot, hl, hover⟩
    have hoff : m.status.overlaps t = false := Bool.eq_false_iff.mpr fun ho => hnot ⟨hl, ho⟩
    by_cases hat : ∃ s, M.HeedsAt l.1 n m s
    · obtain ⟨s, hheeds⟩ := hat
      rw [hto s hheeds] at hover
      exact ⟨m, s, hm, hl, hheeds, hoff, hover⟩
    · rw [hkeep (not_exists.mp hat), hoff] at hover
      cases hover

/-- No member is moved to a shelf that still has a reference to it. -/
def ShelvesFresh (M : Members) (l : Op × Env) : Prop :=
  ∀ n t, M.MovesTo l.1 n t → n ∉ (M.statuses t).drawable

theorem Stocked.step (h : M.Stocked) (hs : M.step l = some M') : M'.Stocked := by
  have hknown : ∀ n, (M.members n).isSome = true → (M'.members n).isSome = true := by
    intro n hn
    obtain ⟨m, hm⟩ := Option.isSome_iff_exists.mp hn
    obtain ⟨m', hm', -⟩ := step_isLocal h.ordered.keyed hs hm
    rw [hm']
    rfl
  refine ⟨h.ordered.step hs, fun t => ?_, fun t n hn => ?_⟩
  · obtain heq | ⟨x, -, heq | heq⟩ := step_reshelved h.ordered.keyed hs t
    · rw [heq]; exact h.sized t
    · rw [heq]; exact (h.sized t).add x
    · rw [heq]; exact (h.sized t).discard x
  · obtain heq | ⟨x, hx, heq | heq⟩ := step_reshelved h.ordered.keyed hs t
    · rw [heq] at hn
      exact hknown n (h.known t n hn)
    · rw [heq] at hn
      rcases (h.sized t).drawable_add hn with rfl | hn
      · exact hx
      · exact hknown n (h.known t n hn)
    · rw [heq] at hn
      exact hknown n (h.known t n ((h.sized t).drawable_discard hn))

/-- **One call** keeps `find` able to finish exactly if it moves no member to a shelf that still
has a reference to it. -/
theorem Stocked.step_iff (h : M.Stocked) (hgood : M.CanFinish) (hs : M.step l = some M') :
    M'.CanFinish ↔ M.ShelvesFresh l := by
  rw [h.canFinish_iff] at hgood
  rw [(h.step hs).canFinish_iff]
  constructor
  · intro hgood' n t hmoves hn
    obtain ⟨m, hm⟩ := Option.isSome_iff_exists.mp (h.known t n hn)
    obtain ⟨hnot, hin⟩ := (movesTo_iff h.ordered hs hm t).mp hmoves
    have hdistinct := hgood' t
    obtain heq | ⟨x, -, heq | heq⟩ := step_reshelved h.ordered.keyed hs t
    · rw [heq] at hin
      exact hnot hin
    · rw [heq, WeakShuffle.mem_iter_add] at hin
      obtain rfl := hin.resolve_right hnot
      rw [heq, (h.sized t).add_distinct_iff (hgood t) hnot] at hdistinct
      exact hdistinct (WeakShuffle.mem_drawable_iff.mp hn)
    · rw [heq, WeakShuffle.mem_iter_discard] at hin
      exact hnot hin.2
  · intro hfresh t
    obtain heq | ⟨x, -, heq | heq⟩ := step_reshelved h.ordered.keyed hs t
    · rw [heq]; exact hgood t
    · rw [heq]
      by_cases hx : x ∈ (M.statuses t).iter
      · rw [WeakShuffle.add_self hx]; exact hgood t
      · rw [(h.sized t).add_distinct_iff (hgood t) hx, ← WeakShuffle.mem_drawable_iff]
        intro hdraw
        -- a new member is not referred to yet
        obtain ⟨m, hm⟩ := Option.isSome_iff_exists.mp (h.known t x hdraw)
        refine hfresh x t ((movesTo_iff h.ordered hs hm t).mpr ⟨hx, ?_⟩) hdraw
        rw [heq, WeakShuffle.mem_iter_add]
        exact Or.inl rfl
    · rw [heq]; exact (h.sized t).discard_distinct (hgood t) x

theorem stocked_alone (config : Config) (env : Env) :
    (alone config env).Stocked ∧ (alone config env).CanFinish := by
  have hstocked : (alone config env).Stocked := by
    refine ⟨⟨(@fresh_alone config env).toKeyed, shelved_alone config env, fun n m hm => ?_⟩,
      fun _ => WeakShuffle.sized_empty, fun _ n hn => ?_⟩
    · exact ((@fresh_alone config env).settled n m hm).tidy
    · cases List.mem_toFinset.mp hn
  exact ⟨hstocked, hstocked.canFinish_iff.mpr fun _ => List.nodup_nil⟩

theorem stocked_load (config : Config) (env : Env) :
    (load config env).Stocked ∧ (load config env).CanFinish := by
  have hpeers : ∀ (peers : List Name) (M : Members), M.Stocked ∧ M.CanFinish →
      (peers.foldl (fun M peer => (M.get peer none env).1) M).Stocked ∧
        (peers.foldl (fun M peer => (M.get peer none env).1) M).CanFinish := by
    intro peers
    induction peers with
    | nil => exact fun M h => h
    | cons peer peers ih =>
      intro M h
      have hs : M.step (.get peer none, env) = some (M.get peer none env).1 := rfl
      refine ih _ ⟨h.1.step hs, (h.1.step_iff h.2 hs).mpr ?_⟩
      rintro n t ⟨m, s, -, -, ⟨source, clock, metadata, hc, -⟩, -⟩
      cases hc
  exact hpeers _ _ (stocked_alone config env)

theorem stocked_init (config : Config) (env : Env) :
    (init config env).after.Stocked ∧ (init config env).after.CanFinish := by
  obtain ⟨hstocked, hgood⟩ := stocked_load config env
  have hf := @fresh_load config env
  have hs : (load config env).step
      (.update (load config env).localName (some .online) (some config.localMetadata), env) =
        some (init config env).after := by
    simp only [Members.step, hf.localMember]
    rfl
  refine ⟨hstocked.step hs, (hstocked.step_iff hgood hs).mpr ?_⟩
  rintro n t ⟨m, s, hm, hl, ⟨source, clock, metadata, hc, -⟩, -⟩
  cases hc
  rw [(hf.isLocal _ m hm).mpr rfl] at hl
  cases hl

/-- **`find` can always finish** in every table a run visits, exactly if no call of the run moves
a member to a status in whose list a reference to it is left. -/
theorem finish_iff (config : Config) (env : Env) (ls : List (Op × Env)) :
    Always step CanFinish (init config env).after ls ↔
      Along step ShelvesFresh (init config env).after ls := by
  obtain ⟨hstocked, hgood⟩ := stocked_init config env
  refine always_iff_along (J := Stocked) (H := fun _ _ => True) ?_ hstocked hgood (along_true _ _)
  intro M l M' h hM _ hs
  exact ⟨h.step_iff hM hs, fun _ => h.step hs⟩

open Worker (still)

/-- `b` and `c` come online, `b` is suspected and comes back, then `c`. -/
def flapping : List (Op × Env) :=
  [(.update "b" (some .online) none, still), (.update "c" (some .online) none, still),
    (.update "b" (some .suspect) none, still), (.update "b" (some .online) none, still),
    (.update "c" (some .suspect) none, still), (.update "c" (some .online) none, still)]

/-- `find(2, status=Status.ONLINE)` draws the same member for ever. -/
theorem not_finish : ¬ ∀ (config : Config) (env : Env) (ls : List (Op × Env)),
    Along step (fun _ l => l.1.Real) (init config env).after ls →
      Always step CanFinish (init config env).after ls := by
  intro h
  have hrun : (run step (init nodeABC still).after flapping).map (fun M =>
      ((M.statuses .online).iter.card, (M.statuses .online).drawable.card)) = some (2, 1) := by
    decide +kernel
  obtain ⟨M, hM, heq⟩ := Option.map_eq_some_iff.mp hrun
  obtain ⟨hiter, hdraw⟩ := Prod.mk.inj heq
  have hfinish := (h nodeABC still flapping (by decide +kernel)).last hM
  have hle := canFinish_iff.mp hfinish .online
  omega

end Members

end Swim
