import Mathlib.Data.List.Induction

/-!
# Swim.Transition.Run

Runs of a partial step function `step : σ → ℓ → Option σ`: a label names everything the step
depends on besides the state, and `none` means that the label is not enabled.

* `run step s ls`      — the state after the labels `ls`, or `none` when one is not enabled.
* `Always step P s ls` — `P` holds in every state the run visits, the first and the last included.
* `Along step G s ls`  — every step the run takes satisfies the guard `G` (on the state before).
* `Sometime step G s ls` — some step the run takes satisfies `G`.
* `Reach step I G s`   — `s` is reached from a state satisfying `I` by steps satisfying `G`.

`always_iff_along` turns a fact about one step into an exact condition on whole runs: when, from
a good state, a step leads to a good state exactly if it satisfies the guard, a run visits only
good states exactly if all its steps satisfy the guard.
-/

namespace Transition

variable {σ ℓ : Type*} {step : σ → ℓ → Option σ}

def run (step : σ → ℓ → Option σ) : σ → List ℓ → Option σ
  | s, [] => some s
  | s, l :: ls => (step s l).bind fun s' => run step s' ls

@[simp] theorem run_cons (s : σ) (l : ℓ) (ls : List ℓ) :
    run step s (l :: ls) = (step s l).bind fun s' => run step s' ls := rfl

theorem run_singleton (s : σ) (l : ℓ) : run step s [l] = step s l := by
  cases h : step s l <;> simp [run, h]

theorem run_append (s : σ) (as bs : List ℓ) :
    run step s (as ++ bs) = (run step s as).bind fun s' => run step s' bs := by
  induction as generalizing s with
  | nil => rfl
  | cons l as ih =>
    simp only [List.cons_append, run_cons]
    cases step s l with
    | none => rfl
    | some s' => exact ih s'

theorem run_concat {s s'' : σ} {ls : List ℓ} {l : ℓ} (h : run step s (ls ++ [l]) = some s'') :
    ∃ s', run step s ls = some s' ∧ step s' l = some s'' := by
  rw [run_append, Option.bind_eq_some_iff] at h
  obtain ⟨s', hs', hl⟩ := h
  refine ⟨s', hs', ?_⟩
  rw [run_cons, Option.bind_eq_some_iff] at hl
  obtain ⟨t, ht, hrest⟩ := hl
  cases hrest
  exact ht

def Always (step : σ → ℓ → Option σ) (P : σ → Prop) : σ → List ℓ → Prop
  | s, [] => P s
  | s, l :: ls => P s ∧ ∀ s', step s l = some s' → Always step P s' ls

def Along (step : σ → ℓ → Option σ) (G : σ → ℓ → Prop) : σ → List ℓ → Prop
  | _, [] => True
  | s, l :: ls => ∀ s', step s l = some s' → G s l ∧ Along step G s' ls

def Sometime (step : σ → ℓ → Option σ) (G : σ → ℓ → Prop) : σ → List ℓ → Prop
  | _, [] => False
  | s, l :: ls => ∃ s', step s l = some s' ∧ (G s l ∨ Sometime step G s' ls)

theorem along_of_forall {G : σ → ℓ → Prop} {s : σ} {ls : List ℓ} (h : ∀ l ∈ ls, ∀ s, G s l) :
    Along step G s ls := by
  induction ls generalizing s with
  | nil => trivial
  | cons l ls ih =>
    exact fun s' _ => ⟨h l List.mem_cons_self s, ih fun k hk => h k (List.mem_cons_of_mem _ hk)⟩

theorem Along.mono {G H : σ → ℓ → Prop} {s : σ} {ls : List ℓ} (hG : Along step G s ls)
    (hGH : ∀ s l, G s l → H s l) : Along step H s ls := by
  induction ls generalizing s with
  | nil => trivial
  | cons l ls ih => exact fun s' hs' => ⟨hGH s l (hG s' hs').1, ih (hG s' hs').2⟩

theorem along_true (s : σ) (ls : List ℓ) : Along step (fun _ _ => True) s ls :=
  along_of_forall fun _ _ _ => trivial

instance Along.decidable (G : σ → ℓ → Prop) [∀ s l, Decidable (G s l)] :
    ∀ (s : σ) (ls : List ℓ), Decidable (Along step G s ls)
  | _, [] => isTrue trivial
  | s, l :: ls =>
    match h : step s l with
    | none => isTrue fun _ hs' => nomatch h.symm.trans hs'
    | some t =>
      have := Along.decidable G t ls
      decidable_of_iff (G s l ∧ Along step G t ls)
        ⟨fun hG _ hs' => Option.some.inj (h.symm.trans hs') ▸ hG, fun hG => hG t h⟩

section Rules

variable {P J : σ → Prop} {G H : σ → ℓ → Prop}

theorem Always.first {s : σ} {ls : List ℓ} (h : Always step P s ls) : P s := by
  cases ls with
  | nil => exact h
  | cons l ls => exact h.1

theorem Always.mono {Q : σ → Prop} {s : σ} {ls : List ℓ} (h : Always step P s ls)
    (hPQ : ∀ s, P s → Q s) : Always step Q s ls := by
  induction ls generalizing s with
  | nil => exact hPQ s h
  | cons l ls ih => exact ⟨hPQ s h.1, fun s' hs' => ih (h.2 s' hs')⟩

theorem Always.last {s s' : σ} {ls : List ℓ} (h : Always step P s ls)
    (hr : run step s ls = some s') : P s' := by
  induction ls generalizing s with
  | nil => cases hr; exact h
  | cons l ls ih =>
    rw [run_cons, Option.bind_eq_some_iff] at hr
    obtain ⟨t, ht, hrest⟩ := hr
    exact ih (h.2 t ht) hrest

theorem Always.along {s : σ} {ls : List ℓ} (h : Always step P s ls)
    (hstep : ∀ s l s', P s → P s' → step s l = some s' → G s l) : Along step G s ls := by
  induction ls generalizing s with
  | nil => trivial
  | cons l ls ih =>
    intro s' hs'
    have hrest := h.2 s' hs'
    exact ⟨hstep s l s' h.1 hrest.first hs', ih hrest⟩

/-- The invariant rule along guarded runs. -/
theorem always_of_along {s : σ} {ls : List ℓ} (h0 : P s) (hG : Along step G s ls)
    (hstep : ∀ s l s', P s → G s l → step s l = some s' → P s') : Always step P s ls := by
  induction ls generalizing s with
  | nil => exact h0
  | cons l ls ih =>
    refine ⟨h0, fun s' hs' => ?_⟩
    obtain ⟨hg, hrest⟩ := hG s' hs'
    exact ih (hstep s l s' h0 hg hs') hrest

/-- The exact condition for a run to visit only states satisfying `P`: `J` is what the proof
may assume of a good state, `H` restricts the runs considered, and `hstep` says that a step from
a good state ends in a good state exactly when it satisfies `G`. -/
theorem always_iff_along
    (hstep : ∀ s l s', J s → P s → H s l → step s l = some s' →
      (P s' ↔ G s l) ∧ (P s' → J s'))
    {s : σ} {ls : List ℓ} (hI : J s) (h0 : P s) (hH : Along step H s ls) :
    Always step P s ls ↔ Along step G s ls := by
  induction ls generalizing s with
  | nil => exact ⟨fun _ => trivial, fun _ => h0⟩
  | cons l ls ih =>
    constructor
    · intro h s' hs'
      obtain ⟨hl, hH'⟩ := hH s' hs'
      obtain ⟨hiff, hkeep⟩ := hstep s l s' hI h0 hl hs'
      have hP' : P s' := (h.2 s' hs').first
      exact ⟨hiff.mp hP', (ih (hkeep hP') hP' hH').mp (h.2 s' hs')⟩
    · intro h
      refine ⟨h0, fun s' hs' => ?_⟩
      obtain ⟨hl, hH'⟩ := hH s' hs'
      obtain ⟨hiff, hkeep⟩ := hstep s l s' hI h0 hl hs'
      have hP' : P s' := hiff.mpr (h s' hs').1
      exact (ih (hkeep hP') hP' hH').mpr (h s' hs').2

theorem Sometime.mono {s : σ} {ls : List ℓ} (h : Sometime step G s ls)
    (hGH : ∀ s l, G s l → H s l) : Sometime step H s ls := by
  induction ls generalizing s with
  | nil => exact h
  | cons l ls ih =>
    obtain ⟨s', hs', hG | hrest⟩ := h
    · exact ⟨s', hs', Or.inl (hGH s l hG)⟩
    · exact ⟨s', hs', Or.inr (ih hrest)⟩

theorem sometime_or {s : σ} {ls : List ℓ} : Sometime step (fun s l => G s l ∨ H s l) s ls ↔
    Sometime step G s ls ∨ Sometime step H s ls := by
  induction ls generalizing s with
  | nil => exact (or_self_iff).symm
  | cons l ls ih =>
    constructor
    · rintro ⟨s', hs', (hG | hH) | hrest⟩
      · exact Or.inl ⟨s', hs', Or.inl hG⟩
      · exact Or.inr ⟨s', hs', Or.inl hH⟩
      · exact (ih.mp hrest).imp (fun h => ⟨s', hs', Or.inr h⟩) fun h => ⟨s', hs', Or.inr h⟩
    · rintro (h | h)
      · exact Sometime.mono h fun _ _ => Or.inl
      · exact Sometime.mono h fun _ _ => Or.inr

theorem sometime_concat {s t : σ} {ls : List ℓ} {l : ℓ} (h : run step s ls = some t) :
    Sometime step G s (ls ++ [l]) ↔ Sometime step G s ls ∨ ∃ t', step t l = some t' ∧ G t l := by
  induction ls generalizing s with
  | nil =>
    cases h
    simp [Sometime]
  | cons k ls ih =>
    rw [run_cons, Option.bind_eq_some_iff] at h
    obtain ⟨s', hs', hrest⟩ := h
    have hih := ih hrest
    constructor
    · rintro ⟨u, hu, hG | hlater⟩
      · exact Or.inl ⟨u, hu, Or.inl hG⟩
      · cases hs'.symm.trans hu
        exact (hih.mp hlater).imp_left fun hl => ⟨s', hs', Or.inr hl⟩
    · rintro (⟨u, hu, hG | hlater⟩ | hlast)
      · exact ⟨u, hu, Or.inl hG⟩
      · cases hs'.symm.trans hu
        exact ⟨s', hs', Or.inr (hih.mpr (Or.inl hlater))⟩
      · exact ⟨s', hs', Or.inr (hih.mpr (Or.inr hlast))⟩

theorem Sometime.middle {s t u : σ} {before after : List ℓ} {l : ℓ}
    (h : run step s before = some t) (hG : G t l)
    (hu : run step s (before ++ l :: after) = some u) :
    Sometime step G s (before ++ l :: after) := by
  induction before generalizing s with
  | nil =>
    cases h
    obtain ⟨t', ht', -⟩ := Option.bind_eq_some_iff.mp hu
    exact ⟨t', ht', Or.inl hG⟩
  | cons k before ih =>
    obtain ⟨s', hs', hrest⟩ := Option.bind_eq_some_iff.mp h
    obtain ⟨s'', hs'', hu'⟩ := Option.bind_eq_some_iff.mp hu
    cases hs'.symm.trans hs''
    exact ⟨s', hs', Or.inr (ih hrest hu')⟩

/-- Induction on a run by its last step, for statements about the run and where it ends. -/
theorem run_induction {s : σ} {R : List ℓ → σ → Prop} (hnil : R [] s)
    (hconcat : ∀ ls l t t', run step s ls = some t → R ls t → step t l = some t' →
      R (ls ++ [l]) t') {ls : List ℓ} {t : σ} (h : run step s ls = some t) : R ls t := by
  induction ls using List.reverseRec generalizing t with
  | nil => cases h; exact hnil
  | append_singleton ls l ih =>
    obtain ⟨u, hu, hl⟩ := run_concat h
    exact hconcat ls l u t hu (ih hu) hl

/-- Induction on a guarded run, for statements about the history and where it leads. -/
theorem along_induction {R : List ℓ → σ → Prop}
    (hconcat : ∀ hist l s s', R hist s → G s l → step s l = some s' → R (hist ++ [l]) s')
    {hist ls : List ℓ} {s t : σ} (hR : R hist s) (hG : Along step G s ls)
    (h : run step s ls = some t) : R (hist ++ ls) t := by
  induction ls generalizing hist s with
  | nil => cases h; rw [List.append_nil]; exact hR
  | cons l ls ih =>
    rw [run_cons, Option.bind_eq_some_iff] at h
    obtain ⟨s', hs', hrest⟩ := h
    obtain ⟨hl, hG'⟩ := hG s' hs'
    have hlast := ih (hconcat hist l s s' hR hl hs') hG' hrest
    rwa [List.append_assoc] at hlast

/-- What holds at the end of a run and not at its start has held since some step, and that step
satisfies what it takes to begin to hold. -/
theorem run_since {s : σ} (hs : ¬ P s)
    (hstep : ∀ ls l t t', run step s ls = some t → step t l = some t' → P t' → P t ∨ G t l)
    {ls : List ℓ} {s' : σ} (h : run step s ls = some s') (hP : P s') :
    ∃ before l after t, ls = before ++ l :: after ∧ run step s before = some t ∧ G t l ∧
      ∀ mid, mid <+: after → ∃ u, run step s (before ++ l :: mid) = some u ∧ P u := by
  induction ls using List.reverseRec generalizing s' with
  | nil => cases h; exact absurd hP hs
  | append_singleton ls l ih =>
    obtain ⟨t, ht, hl⟩ := run_concat h
    obtain hold | hG := hstep ls l t s' ht hl hP
    · obtain ⟨before, k, after, u, rfl, hu, hG, hall⟩ := ih ht hold
      refine ⟨before, k, after ++ [l], u, by simp, hu, hG, fun mid hmid => ?_⟩
      obtain rfl | hmid := List.prefix_concat_iff.mp hmid
      · exact ⟨s', by simpa using h, hP⟩
      · exact hall mid hmid
    · refine ⟨ls, l, [], t, rfl, ht, hG, fun mid hmid => ?_⟩
      rw [List.prefix_nil.mp hmid]
      exact ⟨s', h, hP⟩

/-- A reflexive and transitive relation that every step respects relates the ends of a run. -/
theorem run_rel {R : σ → σ → Prop} (hrefl : ∀ s, R s s)
    (htrans : ∀ a b c, R a b → R b c → R a c)
    (hstep : ∀ s l s', step s l = some s' → R s s') {s s' : σ} {ls : List ℓ}
    (h : run step s ls = some s') : R s s' := by
  induction ls generalizing s with
  | nil => cases h; exact hrefl _
  | cons l ls ih =>
    rw [run_cons, Option.bind_eq_some_iff] at h
    obtain ⟨t, ht, hrest⟩ := h
    exact htrans _ _ _ (hstep s l t ht) (ih hrest)

end Rules

inductive Reach (step : σ → ℓ → Option σ) (I : σ → Prop) (G : σ → ℓ → Prop) : σ → Prop where
  | init {s : σ} (h : I s) : Reach step I G s
  | next {s s' : σ} {l : ℓ} : Reach step I G s → G s l → step s l = some s' → Reach step I G s'

section Reach

variable {I P : σ → Prop} {G H : σ → ℓ → Prop}

theorem Reach.run {s s' : σ} {ls : List ℓ} (hs : Reach step I G s) (hG : Along step G s ls)
    (h : run step s ls = some s') : Reach step I G s' := by
  induction ls generalizing s with
  | nil => cases h; exact hs
  | cons l ls ih =>
    rw [run_cons, Option.bind_eq_some_iff] at h
    obtain ⟨t, ht, hrest⟩ := h
    obtain ⟨hg, hG'⟩ := hG t ht
    exact ih (hs.next hg ht) hG' hrest

/-- The invariant rule: what holds initially and is preserved by every step from a reachable
state holds in every reachable state. -/
theorem Reach.invariant {s : σ} (h : Reach step I G s) (hinit : ∀ s, I s → P s)
    (hstep : ∀ s l s', Reach step I G s → P s → G s l → step s l = some s' → P s') : P s := by
  induction h with
  | init h0 => exact hinit _ h0
  | next hr hg hs ih => exact hstep _ _ _ hr ih hg hs

end Reach

/-- The machine that also records the labels of the steps it took, latest last: conditions on
the history of a run are conditions on the states of the recorded machine. -/
def recorded (step : σ → ℓ → Option σ) : σ × List ℓ → ℓ → Option (σ × List ℓ)
  | (s, hist), l => (step s l).map fun s' => (s', hist ++ [l])

theorem recorded_eq_some {s : σ × List ℓ} {l : ℓ} {s' : σ × List ℓ} :
    recorded step s l = some s' ↔ step s.1 l = some s'.1 ∧ s'.2 = s.2 ++ [l] := by
  obtain ⟨s, hist⟩ := s
  obtain ⟨t, hist'⟩ := s'
  simp only [recorded, Option.map_eq_some_iff, Prod.mk.injEq]
  constructor
  · rintro ⟨u, hu, rfl, rfl⟩
    exact ⟨hu, rfl⟩
  · rintro ⟨ht, rfl⟩
    exact ⟨t, ht, rfl, rfl⟩

end Transition
