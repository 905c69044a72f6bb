import Mathlib.Data.List.Induction
import Mathlib.Logic.Function.Basic
import Mathlib.Order.Bounds.Basic

/-!
# Swim.Collection.Latest

Partial maps that are overwritten by a list of entries, the later ones last.

`overwrite K l` holds the latest entry of `l` for each key, and what `K` has for the others. It
holds the greatest of all values given for a key, as a map that keeps maxima would, exactly when
the latest one bounds them (`overwrite_isGreatest_iff`).
-/

namespace Collection

variable {κ β : Type*} [DecidableEq κ]

def overwrite (K : κ → Option β) (l : List (κ × β)) : κ → Option β :=
  l.foldl (fun K p => Function.update K p.1 (some p.2)) K

/-- The value of the last entry for a key. -/
def latest (l : List (κ × β)) (k : κ) : Option β :=
  ((l.filter fun p => p.1 = k).getLast?).map Prod.snd

/-- All values for a key, those of `K` included. -/
def given (K : κ → Option β) (l : List (κ × β)) (k : κ) : Set β :=
  {v | K k = some v ∨ (k, v) ∈ l}

variable {K : κ → Option β} {l : List (κ × β)} {k : κ} {v : β}

theorem overwrite_concat (K : κ → Option β) (l : List (κ × β)) (p : κ × β) :
    overwrite K (l ++ [p]) = Function.update (overwrite K l) p.1 (some p.2) := by
  rw [overwrite, List.foldl_append]
  rfl

theorem latest_concat (l : List (κ × β)) (p : κ × β) (k : κ) :
    latest (l ++ [p]) k = if p.1 = k then some p.2 else latest l k := by
  rw [latest, List.filter_append]
  split
  · rename_i hk
    simp [hk]
  · rename_i hk
    simp [hk, latest]

theorem overwrite_eq (K : κ → Option β) (l : List (κ × β)) (k : κ) :
    overwrite K l k = (latest l k).or (K k) := by
  induction l using List.reverseRec with
  | nil => rfl
  | append_singleton l p ih =>
    rw [overwrite_concat, latest_concat]
    by_cases hk : p.1 = k
    · subst hk
      rw [Function.update_self, if_pos rfl]
      rfl
    · rw [Function.update_of_ne (Ne.symm hk), if_neg hk, ih]

theorem mem_of_latest (h : latest l k = some v) : (k, v) ∈ l := by
  obtain ⟨p, hp, rfl⟩ := Option.map_eq_some_iff.mp h
  obtain ⟨hmem, hk⟩ := List.mem_filter.mp (List.mem_of_getLast? hp)
  rw [decide_eq_true_eq] at hk
  subst hk
  exact hmem

theorem not_mem_of_latest (h : latest l k = none) : (k, v) ∉ l := by
  intro hmem
  rw [latest, Option.map_eq_none_iff, List.getLast?_eq_none_iff, List.filter_eq_nil_iff] at h
  exact h (k, v) hmem (by simp)

/-- Overwriting keeps the greatest value exactly if the latest one bounds all others. -/
theorem overwrite_isGreatest_iff [PartialOrder β] :
    (∀ v, overwrite K l k = some v ↔ IsGreatest (given K l k) v) ↔
      ∀ v, latest l k = some v → v ∈ upperBounds (given K l k) := by
  constructor
  · intro h v hv
    exact ((h v).mp (by rw [overwrite_eq, hv]; rfl)).2
  · intro h v
    rw [overwrite_eq]
    cases hl : latest l k with
    | some u =>
      have hu : IsGreatest (given K l k) u := ⟨Or.inr (mem_of_latest hl), h u hl⟩
      rw [Option.some_or, Option.some_inj]
      constructor
      · rintro rfl; exact hu
      · exact fun hv => hu.unique hv
    | none =>
      rw [Option.none_or]
      constructor
      · intro hv
        refine ⟨Or.inl hv, ?_⟩
        rintro u (hu | hu)
        · rw [hv] at hu; cases hu; exact le_rfl
        · exact absurd hu (not_mem_of_latest hl)
      · rintro ⟨hv | hv, -⟩
        · exact hv
        · exact absurd hv (not_mem_of_latest hl)

end Collection
