import Swim.Shuffle
import Swim.Transition.Run

/-!
# Swim.ShuffleExact

When `WeakShuffle.choice` draws from exactly the current set.

`_finalize` moves the last reference into the freed slot but leaves the moved reference's entry
in `_indexes` as it was. `Exact` says that list, index and set are in step; an addition keeps
them in step, and a removal does exactly when the removed reference is in the last slot
(`exact_run_iff`). After any other removal the next removal of the moved element takes out a
wrong slot, as in `stale_draw`.

`__iter__`, `__contains__` and `__len__` are read off the weak dictionary and are right in any
case: they refine a plain set (`iter_run`).
-/

namespace Swim
namespace WeakShuffle

open Transition Collection

variable {α : Type} [DecidableEq α]

def Op.onSet (S : Finset α) : Op α → Finset α
  | .add val => insert val S
  | .discard val => S.erase val
  | .die val => S.erase val

/-- The set view is exact after every sequence of operations. -/
theorem iter_run {s s' : WeakShuffle α} {ops : List (Op α)} (h : run step s ops = some s') :
    s'.iter = ops.foldl Op.onSet s.iter := by
  induction ops generalizing s with
  | nil => cases h; rfl
  | cons op ops ih =>
    rw [run_cons, Option.bind_eq_some_iff] at h
    obtain ⟨t, ht, hrest⟩ := h
    have hop : t.iter = op.onSet s.iter := by
      ext a
      cases op with
      | add val => cases ht; simp [Op.onSet]
      | discard val => cases ht; simp [Op.onSet]
      | die val => cases ht; simp [Op.onSet]
    rw [ih hrest, hop, List.foldl_cons]

/-- List, index and set are in step, and so draws are exact. -/
structure Exact (s : WeakShuffle α) : Prop where
  /-- `_values` holds one live reference for each element of the set, and nothing else. -/
  holds : (s.values.map s.deref : Multiset (Option α)) = s.iter.val.map some
  /-- `_indexes` maps each reference to its position in `_values`. -/
  index : Indexes (fun r => s.indexes.lookup r) s.values
  drawn : ∀ a, (∃ draw, s.choice draw = .ok a) ↔ a ∈ s.iter
  contained : ∀ a, s.contains a ↔ a ∈ s.iter
  keyError : ∀ draw, s.choice draw = .error .key ↔ s.iter = ∅

/-- The same in terms of the reference `_weak_vals` records for each element. -/
structure Coherent (s : WeakShuffle α) : Prop where
  live : ∀ a r, s.weakVals.lookup a = some r → s.deref r = some a
  registered : ∀ r, r ∈ s.values ↔ ∃ a, s.weakVals.lookup a = some r
  index : Indexes (fun r => s.indexes.lookup r) s.values

/-- The removal, if it is one, concerns the reference in the last slot. -/
def RemovesLast (s : WeakShuffle α) : Op α → Prop
  | .add _ => True
  | .discard a | .die a => ∀ r, s.weakVals.lookup a = some r → s.values.getLast? = some r

section Coherent

variable {s : WeakShuffle α} {a b : α} {r : Ref}

omit [DecidableEq α] in
theorem lt_of_deref (h : s.deref r = some a) : r < s.refs.length := by
  rw [deref, Option.join_eq_some_iff] at h
  exact (List.getElem?_eq_some_iff.mp h).1

theorem Coherent.ref_lt (h : s.Coherent) (hr : r ∈ s.values) : r < s.refs.length := by
  obtain ⟨a, ha⟩ := (h.registered r).mp hr
  exact lt_of_deref (h.live a r ha)

theorem Coherent.inj (h : s.Coherent) (ha : s.weakVals.lookup a = some r)
    (hb : s.weakVals.lookup b = some r) : a = b := by
  have e := (h.live a r ha).symm.trans (h.live b r hb)
  exact Option.some.inj e

theorem coherent_empty : (empty : WeakShuffle α).Coherent where
  live := by simp [empty]
  registered := by simp [empty]
  index := by
    intro r i
    simp [empty]

theorem lookup_insert_eq {κ β : Type} [DecidableEq κ] (m : Finmap fun _ : κ => β) (k : κ) (v : β) :
    (fun x => (m.insert k v).lookup x) = Function.update (fun x => m.lookup x) k (some v) := by
  funext x
  by_cases hx : x = k
  · subst hx; rw [Finmap.lookup_insert, Function.update_self]
  · rw [Finmap.lookup_insert_of_ne _ hx, Function.update_of_ne hx]

theorem lookup_erase_eq {κ β : Type} [DecidableEq κ] (m : Finmap fun _ : κ => β) (k : κ) :
    (fun x => (m.erase k).lookup x) = Function.update (fun x => m.lookup x) k none := by
  funext x
  by_cases hx : x = k
  · subst hx; rw [Finmap.lookup_erase, Function.update_self]
  · rw [Finmap.lookup_erase_ne hx, Function.update_of_ne hx]

theorem Coherent.add (h : s.Coherent) (b : α) : (s.add b).Coherent := by
  unfold WeakShuffle.add
  split
  · exact h
  · rename_i hb
    have hfresh : s.refs.length ∉ s.values := fun hm => Nat.lt_irrefl _ (h.ref_lt hm)
    have hnone : s.weakVals.lookup b = none := Finmap.lookup_eq_none.mpr hb
    refine ⟨?_, ?_, ?_⟩
    · intro a r ha
      by_cases hab : a = b
      · subst hab
        rw [Finmap.lookup_insert] at ha
        cases ha
        simp [deref]
      · rw [Finmap.lookup_insert_of_ne _ hab] at ha
        have hlt := h.ref_lt ((h.registered r).mpr ⟨a, ha⟩)
        have hd := h.live a r ha
        simpa [deref, List.getElem?_append_left hlt] using hd
    · intro r
      simp only [List.mem_append, List.mem_singleton, h.registered r]
      constructor
      · rintro (⟨a, ha⟩ | rfl)
        · have hab : a ≠ b := by rintro rfl; rw [hnone] at ha; cases ha
          exact ⟨a, by rw [Finmap.lookup_insert_of_ne _ hab]; exact ha⟩
        · exact ⟨b, Finmap.lookup_insert _⟩
      · rintro ⟨a, ha⟩
        by_cases hab : a = b
        · subst hab
          rw [Finmap.lookup_insert] at ha
          exact Or.inr (Option.some.inj ha).symm
        · rw [Finmap.lookup_insert_of_ne _ hab] at ha
          exact Or.inl ⟨a, ha⟩
    · simp only [lookup_insert_eq]
      exact h.index.concat hfresh

theorem deref_die {q : Ref} (hba : b ≠ a) (h : s.deref q = some b) :
    ({ s with refs := s.refs.map fun o => if o = some a then none else o } :
      WeakShuffle α).deref q = some b := by
  rw [deref, Option.join_eq_some_iff] at h ⊢
  simp [h, hba]

omit [DecidableEq α] in
/-- `_finalize` moves the last reference to the slot that the index names, if that is an earlier
one, and drops the last slot. -/
theorem finalize_eq {l : List Ref} {q : Ref} {i : Nat} (hi : s.indexes.lookup r = some i)
    (hl : s.values = l ++ [q]) :
    s.finalize r = { s with indexes := s.indexes.erase r, values := l.set i q } := by
  have hfin : s.finalize r = { s with
      indexes := s.indexes.erase r
      values := (if i < l.length then (l ++ [q]).set i q else l ++ [q]).dropLast } := by
    simp [finalize, hi, hl]
  rw [hfin]
  by_cases hil : i < l.length
  · rw [if_pos hil, List.set_append_left _ _ hil, List.dropLast_concat]
  · rw [if_neg hil, List.dropLast_concat, List.set_eq_of_length_le (by omega)]

omit [DecidableEq α] in
/-- What `_finalize` does to a registered reference: drop the last slot when it is there, else
overwrite its slot with the last reference and drop the last slot. -/
theorem finalize_cases (hidx : Indexes (fun r => s.indexes.lookup r) s.values)
    (hr : r ∈ s.values) :
    (∃ l, s.values = l ++ [r] ∧
      s.finalize r = { s with indexes := s.indexes.erase r, values := l }) ∨
    (∃ l q i, s.values = l ++ [q] ∧ l[i]? = some r ∧
      s.finalize r = { s with indexes := s.indexes.erase r, values := l.set i q }) := by
  obtain ⟨i, hi⟩ := hidx.mem_iff.mp hr
  have hslot := (hidx r i).mp hi
  obtain ⟨l, q, hlq⟩ : ∃ l q, s.values = l ++ [q] :=
    ⟨_, _, (List.dropLast_append_getLast (List.ne_nil_of_mem hr)).symm⟩
  have hfin := finalize_eq hi hlq
  rw [hlq] at hslot
  by_cases hil : i < l.length
  · rw [List.getElem?_append_left hil] at hslot
    exact Or.inr ⟨l, q, i, hlq, hslot, hfin⟩
  · have hlt := (List.getElem?_eq_some_iff.mp hslot).1
    rw [List.length_append, List.length_singleton] at hlt
    have hiq : i = l.length := by omega
    subst hiq
    have hqr : q = r := by simpa using hslot
    subst hqr
    exact Or.inl ⟨l, hlq, by rw [hfin, List.set_eq_of_length_le le_rfl]⟩

/-- Removing the element `a` registered under `r`: the state `t` handed to `_finalize` has lost
the dictionary entry of `a` and, when `a` died, the targets of its references. -/
theorem Coherent.remove (h : s.Coherent) {t : WeakShuffle α} (ha : s.weakVals.lookup a = some r)
    (hvals : t.weakVals = s.weakVals.erase a) (hidx : t.indexes = s.indexes)
    (hval : t.values = s.values) (hderef : ∀ b q, b ≠ a → s.deref q = some b → t.deref q = some b)
    (hlast : s.values.getLast? = some r) : (t.finalize r).Coherent := by
  have hr : r ∈ t.values := by rw [hval]; exact (h.registered r).mpr ⟨a, ha⟩
  have hindex : Indexes (fun q => t.indexes.lookup q) t.values := by rw [hidx, hval]; exact h.index
  have hnd : t.values.Nodup := hindex.nodup
  obtain ⟨l, hl, hfin⟩ | ⟨l, q, i, hl, hi, -⟩ := finalize_cases hindex hr
  · rw [hfin]
    rw [hl, List.nodup_append] at hnd
    have hrl : r ∉ l := fun hm => hnd.2.2 r hm r (by simp) rfl
    refine ⟨?_, ?_, ?_⟩
    · intro b q hb
      have hba : b ≠ a := by rintro rfl; rw [hvals, Finmap.lookup_erase] at hb; cases hb
      rw [hvals, Finmap.lookup_erase_ne hba] at hb
      exact hderef b q hba (h.live b q hb)
    · intro q
      have hq : q ∈ l ↔ q ∈ s.values ∧ q ≠ r := by
        rw [← hval, hl, List.mem_append, List.mem_singleton]
        constructor
        · intro hm; exact ⟨Or.inl hm, fun e => hrl (e ▸ hm)⟩
        · rintro ⟨hm | hm, hne⟩
          · exact hm
          · exact absurd hm hne
      show q ∈ l ↔ ∃ b, t.weakVals.lookup b = some q
      rw [hq, h.registered q, hvals]
      constructor
      · rintro ⟨⟨b, hb⟩, hne⟩
        have hba : b ≠ a := by rintro rfl; rw [ha] at hb; exact hne (Option.some.inj hb).symm
        exact ⟨b, by rw [Finmap.lookup_erase_ne hba]; exact hb⟩
      · rintro ⟨b, hb⟩
        have hba : b ≠ a := by rintro rfl; rw [Finmap.lookup_erase] at hb; cases hb
        rw [Finmap.lookup_erase_ne hba] at hb
        exact ⟨⟨b, hb⟩, fun e => hba (h.inj (e ▸ hb) ha)⟩
    · simp only [lookup_erase_eq]
      exact (hl ▸ hindex).dropLast
  · -- the reference is in an earlier slot as well: two equal slots
    rw [← hval, hl, List.getLast?_concat] at hlast
    cases hlast
    rw [hl, List.nodup_append] at hnd
    exact absurd rfl (hnd.2.2 _ (List.mem_of_getElem? hi) _ (by simp))

/-- Any other removal leaves the moved reference with a wrong index. -/
theorem Coherent.remove_ne (h : s.Coherent) {t : WeakShuffle α}
    (ha : s.weakVals.lookup a = some r) (hidx : t.indexes = s.indexes) (hval : t.values = s.values)
    (hlast : s.values.getLast? ≠ some r) :
    ¬ Indexes (fun q => (t.finalize r).indexes.lookup q) (t.finalize r).values := by
  have hr : r ∈ t.values := by rw [hval]; exact (h.registered r).mpr ⟨a, ha⟩
  have hindex : Indexes (fun q => t.indexes.lookup q) t.values := by rw [hidx, hval]; exact h.index
  obtain ⟨l, hl, -⟩ | ⟨l, q, i, hl, hi, hfin⟩ := finalize_cases hindex hr
  · exact absurd (by rw [← hval, hl, List.getLast?_concat]) hlast
  · rw [hfin]
    simp only [lookup_erase_eq]
    exact not_indexes_swap (hl ▸ hindex) hi

theorem Coherent.of_absent (h : s.Coherent) (ha : s.weakVals.lookup a = none) :
    ({ s with refs := s.refs.map fun o => if o = some a then none else o } :
      WeakShuffle α).Coherent where
  live := by
    intro b r hb
    have hba : b ≠ a := by rintro rfl; rw [ha] at hb; cases hb
    exact deref_die hba (h.live b r hb)
  registered := h.registered
  index := h.index

end Coherent

/-! ## The exact condition -/

/-- The state `discard` hands to `_finalize`. -/
def unlinked (s : WeakShuffle α) (a : α) (r : Ref) : WeakShuffle α :=
  { s with weakVals := s.weakVals.erase a, weakValsRev := s.weakValsRev.erase r }

theorem discard_eq {s : WeakShuffle α} {a : α} {r : Ref} (h : s.weakVals.lookup a = some r) :
    s.discard a = (s.unlinked a r).finalize r := by
  simp only [discard, h, unlinked]

theorem die_eq {s : WeakShuffle α} {a : α} {r : Ref} (h : s.weakVals.lookup a = some r) :
    s.die a = ({ s.unlinked a r with
      refs := s.refs.map fun o => if o = some a then none else o } : WeakShuffle α).finalize r := by
  simp only [die, h, unlinked]

/-- One step from a coherent state: it stays coherent exactly when the step removes the last
slot, and otherwise `_indexes` is wrong. -/
theorem Coherent.step_iff {s s' : WeakShuffle α} {op : Op α} (h : s.Coherent)
    (hs : step s op = some s') :
    (s.RemovesLast op → s'.Coherent) ∧
      (Indexes (fun r => s'.indexes.lookup r) s'.values → s.RemovesLast op) := by
  have absent : ∀ a, s.weakVals.lookup a = none → ∀ r, s.weakVals.lookup a = some r →
      s.values.getLast? = some r := by
    intro a ha r hr; rw [ha] at hr; cases hr
  cases op with
  | add b =>
    cases hs
    exact ⟨fun _ => h.add b, fun _ => trivial⟩
  | discard b =>
    cases hs
    cases hb : s.weakVals.lookup b with
    | none =>
      have hsame : s.discard b = s := by simp only [discard, hb]
      exact ⟨fun _ => by rw [hsame]; exact h, fun _ => absent b hb⟩
    | some r =>
      rw [discard_eq hb]
      refine ⟨fun hlast => h.remove hb rfl rfl rfl (fun _ _ _ hd => hd) (hlast r hb), ?_⟩
      intro hi q hq
      cases hb.symm.trans hq
      exact not_not.mp fun hne => h.remove_ne (t := s.unlinked b r) hb rfl rfl hne hi
  | die b =>
    cases hs
    cases hb : s.weakVals.lookup b with
    | none =>
      have hsame : s.die b =
          { s with refs := s.refs.map fun o => if o = some b then none else o } := by
        simp only [die, hb]
      exact ⟨fun _ => by rw [hsame]; exact h.of_absent hb, fun _ => absent b hb⟩
    | some r =>
      rw [die_eq hb]
      refine ⟨fun hlast => h.remove hb rfl rfl rfl (fun _ _ hne hd => deref_die hne hd)
        (hlast r hb), ?_⟩
      intro hi q hq
      cases hb.symm.trans hq
      exact not_not.mp fun hne => h.remove_ne (t := { s.unlinked b r with refs := _ }) hb rfl rfl
        hne hi

omit [DecidableEq α] in
theorem choice_eq_ok {s : WeakShuffle α} {a : α} :
    (∃ draw, s.choice draw = .ok a) ↔ ∃ r ∈ s.values, s.deref r = some a := by
  constructor
  · rintro ⟨draw, hd⟩
    unfold choice at hd
    split at hd
    · cases hd
    · rename_i r hr
      split at hd
      · cases hd
      · rename_i b hb
        cases hd
        exact ⟨r, List.mem_of_getElem? hr, hb⟩
  · rintro ⟨r, hr, hd⟩
    obtain ⟨i, hi⟩ := List.mem_iff_getElem?.mp hr
    have hlt := (List.getElem?_eq_some_iff.mp hi).1
    exact ⟨i, by simp only [choice, Nat.mod_eq_of_lt hlt, hi, hd]⟩

omit [DecidableEq α] in
theorem choice_eq_key {s : WeakShuffle α} {draw : Nat} :
    s.choice draw = .error .key ↔ s.values = [] := by
  constructor
  · intro hd
    unfold choice at hd
    split at hd
    · rename_i hnone
      by_contra hne
      have hpos := List.length_pos_iff.mpr hne
      rw [List.getElem?_eq_none_iff] at hnone
      have := Nat.mod_lt draw hpos
      omega
    · split at hd <;> cases hd
  · intro hnil
    simp [choice, hnil]

theorem Coherent.exact {s : WeakShuffle α} (h : s.Coherent) : s.Exact where
  holds := by
    refine (Multiset.Nodup.ext ?_ ?_).mpr ?_
    · rw [Multiset.coe_nodup]
      refine List.Nodup.map_on ?_ h.index.nodup
      intro q hq r hr e
      obtain ⟨a, ha⟩ := (h.registered q).mp hq
      obtain ⟨b, hb⟩ := (h.registered r).mp hr
      have hab : a = b := Option.some.inj ((h.live a q ha).symm.trans (e.trans (h.live b r hb)))
      subst hab
      exact Option.some.inj (ha.symm.trans hb)
    · exact s.iter.nodup.map (Option.some_injective α)
    · intro o
      simp only [Multiset.mem_coe, List.mem_map, Multiset.mem_map, Finset.mem_val, mem_iter_iff]
      constructor
      · rintro ⟨r, hr, rfl⟩
        obtain ⟨a, ha⟩ := (h.registered r).mp hr
        exact ⟨a, ⟨r, ha⟩, (h.live a r ha).symm⟩
      · rintro ⟨a, ⟨r, ha⟩, rfl⟩
        exact ⟨r, (h.registered r).mpr ⟨a, ha⟩, h.live a r ha⟩
  index := h.index
  drawn := by
    intro a
    rw [choice_eq_ok, mem_iter_iff]
    constructor
    · rintro ⟨r, hr, hd⟩
      obtain ⟨b, hb⟩ := (h.registered r).mp hr
      cases hd.symm.trans (h.live b r hb)
      exact ⟨r, hb⟩
    · rintro ⟨r, ha⟩
      exact ⟨r, (h.registered r).mpr ⟨a, ha⟩, h.live a r ha⟩
  contained := fun a => mem_iter.symm
  keyError := by
    intro draw
    rw [choice_eq_key, List.eq_nil_iff_forall_not_mem, Finset.eq_empty_iff_forall_notMem]
    constructor
    · intro hnil a ha
      obtain ⟨r, hr⟩ := mem_iter_iff.mp ha
      exact hnil r ((h.registered r).mpr ⟨a, hr⟩)
    · intro hnil r hr
      obtain ⟨a, ha⟩ := (h.registered r).mp hr
      exact hnil a (mem_iter_iff.mpr ⟨r, ha⟩)

theorem coherent_ofIter (init : List α) : (ofIter init).Coherent := by
  have hfold : ∀ (s : WeakShuffle α), s.Coherent → (init.foldl WeakShuffle.add s).Coherent := by
    induction init with
    | nil => exact fun s hs => hs
    | cons a init ih => exact fun s hs => ih _ (hs.add a)
  exact hfold _ coherent_empty

/-- **Exact draws.** From any initial elements and under any sequence of operations, every state
is exact if and only if every discard or death of an element concerns the last slot. -/
theorem exact_run_iff (init : List α) (ops : List (Op α)) :
    Always step Exact (ofIter init) ops ↔ Along step RemovesLast (ofIter init) ops := by
  refine always_iff_along (J := Coherent) (H := fun _ _ => True) ?_ (coherent_ofIter init)
    (coherent_ofIter init).exact (along_true _ _)
  intro s op s' hc _ _ hs
  obtain ⟨hkeep, hback⟩ := hc.step_iff hs
  exact ⟨⟨fun he => hback he.index, fun hl => (hkeep hl).exact⟩, fun he => hkeep (hback he.index)⟩

/-- After removing `0` and then `2` from a shuffle of three, the set is `{1}` and every draw
gives `2`. -/
theorem stale_draw :
    ∃ s, run step (ofIter [0, 1, 2]) [.discard 0, .discard 2] = some s ∧
      s.iter = ({1} : Finset Nat) ∧ ∀ draw, s.choice draw = .ok 2 := by
  refine ⟨_, rfl, by decide, fun draw => ?_⟩
  have hval : (((ofIter [0, 1, 2]).discard 0).discard 2).values = [2] := by decide
  simp only [choice, hval, List.length_singleton, Nat.mod_one]
  rfl

theorem not_exact_run : ¬ ∀ (init : List Nat) (ops : List (Op Nat)),
    Always step Exact (ofIter init) ops := by
  intro h
  obtain ⟨s, hs, hiter, hdraw⟩ := stale_draw
  have hmem := ((h _ _).last hs).drawn 2 |>.mp ⟨0, hdraw 0⟩
  rw [hiter] at hmem
  exact absurd hmem (by decide)

end WeakShuffle
end Swim
