import Mathlib.Data.List.Nodup
import Mathlib.Logic.Function.Basic

/-!
# Swim.Collection.Index

Position indexes of lists. `Indexes idx l` says that the partial map `idx` sends each element of
`l` to its position in `l`, and is undefined elsewhere; such a list has no repeated element.

Appending a new element and removing the last one keep a list and its index in step. Overwriting
an earlier slot with the last element does not, when the index entry of the moved element is
left as it was (`not_indexes_swap`).
-/

namespace Collection

variable {κ : Type*}

def Indexes (idx : κ → Option Nat) (l : List κ) : Prop :=
  ∀ r i, idx r = some i ↔ l[i]? = some r

namespace Indexes

variable {idx : κ → Option Nat} {l : List κ} {r last : κ}

theorem mem_iff (h : Indexes idx l) : r ∈ l ↔ ∃ i, idx r = some i := by
  rw [List.mem_iff_getElem?]
  exact exists_congr fun i => (h r i).symm

theorem nodup (h : Indexes idx l) : l.Nodup := by
  rw [List.nodup_iff_injective_get]
  intro i j hij
  have hi : idx (l.get i) = some i.1 := (h _ _).mpr (by simp)
  have hj : idx (l.get j) = some j.1 := (h _ _).mpr (by simp)
  rw [hij, hj] at hi
  exact Fin.ext (Option.some.inj hi).symm

/-- The last element of a list is the only one that is not in the list without it. -/
theorem getElem?_concat_of_ne {i : Nat} {q : κ} (hq : q ≠ r) :
    (l ++ [r])[i]? = some q ↔ l[i]? = some q := by
  rw [List.getElem?_append]
  split
  · rfl
  · rename_i hge
    have hnone : l[i]? = none := List.getElem?_eq_none (by omega)
    rw [hnone, List.getElem?_singleton]
    split
    · simpa using Ne.symm hq
    · rfl

variable [DecidableEq κ]

theorem concat (h : Indexes idx l) (hr : r ∉ l) :
    Indexes (Function.update idx r (some l.length)) (l ++ [r]) := by
  intro q i
  by_cases hq : q = r
  · subst hq
    rw [Function.update_self, Option.some_inj]
    constructor
    · rintro rfl; simp
    · intro hi
      rw [List.getElem?_append] at hi
      split at hi
      · exact absurd (List.mem_of_getElem? hi) hr
      · rw [List.getElem?_singleton] at hi
        split at hi
        · omega
        · cases hi
  · rw [Function.update_of_ne hq, h q i, getElem?_concat_of_ne hq]

theorem dropLast (h : Indexes idx (l ++ [r])) : Indexes (Function.update idx r none) l := by
  have hnd := h.nodup
  rw [List.nodup_append] at hnd
  have hr : r ∉ l := fun hm => hnd.2.2 r hm r (by simp) rfl
  intro q i
  by_cases hq : q = r
  · subst hq
    rw [Function.update_self]
    exact ⟨nofun, fun hi => absurd (List.mem_of_getElem? hi) hr⟩
  · rw [Function.update_of_ne hq, h q i, getElem?_concat_of_ne hq]

end Indexes

/-- Moving the last element into an earlier slot without recording its new position. -/
theorem not_indexes_swap [DecidableEq κ] {idx : κ → Option Nat} {l : List κ} {r last : κ} {i : Nat}
    (h : Indexes idx (l ++ [last])) (hi : l[i]? = some r) :
    ¬ Indexes (Function.update idx r none) (l.set i last) := by
  intro hbad
  have hlast : idx last = some l.length := (h _ _).mpr (by simp)
  have hne : last ≠ r := by
    rintro rfl
    have hfirst : idx last = some i := by
      refine (h _ _).mpr ?_
      rw [List.getElem?_append_left (List.getElem?_eq_some_iff.mp hi).1, hi]
    rw [hlast] at hfirst
    have := (List.getElem?_eq_some_iff.mp hi).1
    have := Option.some.inj hfirst
    omega
  have hidx := (hbad last l.length).mp (by rw [Function.update_of_ne hne, hlast])
  rw [List.getElem?_eq_none (by simp)] at hidx
  cases hidx

end Collection
