import Swim.ByName
import Swim.Suspicion

/-!
# Swim.Coherence

The views of the set of members: iteration, length, the dictionary, the local member and
`_non_local` agree after any calls (`Linked.views`), and membership does not (`never_coherent`).
`__contains__` looks among the keys of `_members`, which are names.
-/

namespace Swim

open Transition

namespace Objects

variable {O : Objects} {n : Name} {r : ObjectId}

/-- Iteration, the dictionary, the local member and `_non_local` agree. -/
structure Views (O : Objects) : Prop where
  elements : ∀ r, r ∈ O.iter ↔ r = O.localId ∨ r ∈ O.nonLocal
  once : O.iter.Nodup
  names : (O.iter.map O.name).Nodup
  len : O.len = O.iter.length
  get : ∀ r ∈ O.iter, ∀ validity env, (O.get (O.name r) validity env).2 = r

structure Coherent (O : Objects) : Prop extends Views O where
  contains : ∀ r < O.objects.length, O.contains (.member r) = true ↔ r ∈ O.iter

theorem Linked.views (h : O.Linked) : O.Views where
  elements := by
    intro r
    rw [h.iter, refs, List.mem_cons]
  once := by
    rw [h.iter]
    exact h.names.of_map
  names := by rw [h.iter]; exact h.names
  len := by rw [len, Objects.iter, List.length_map]
  get := by
    intro r hr validity env
    rw [h.iter] at hr
    have hlookup : O.lookup (O.name r) = some r := h.lookup_eq_some.mpr ⟨hr, rfl⟩
    have hfound : O.getOrCreate (O.name r) env = (O, r) := by
      simp only [Objects.getOrCreate, hlookup]
    unfold Objects.get
    rw [hfound]
    cases validity with
    | none => rfl
    | some v => dsimp only; split <;> rfl

/-- The set is not even a subset of itself. -/
theorem Linked.leSelf (h : O.Linked) : O.leSelf = false := by
  rw [Objects.leSelf, if_neg (lt_irrefl _), List.all_eq_false]
  refine ⟨O.localId, ?_, by rw [contains_member]; exact Bool.false_ne_true⟩
  rw [h.iter]
  exact List.mem_cons_self

/-- **Never coherent.** After any calls the views agree, and a name is in the set exactly if a
member has it; but no `Member` is, also not those that iteration yields. -/
theorem never_coherent (config : Config) (env₀ : Env) (ls : List (Op × Env)) (O : Objects)
    (h : run step (init config env₀).after ls = some O) :
    O.Views ∧ (∀ n, O.contains (.str n) = true ↔ ∃ r ∈ O.iter, O.name r = n) ∧
      (∀ r, O.contains (.member r) = false) ∧ O.leSelf = false ∧ ¬ O.Coherent := by
  have hlinked := linked_run h
  have hlocal : O.localId ∈ O.iter := by rw [hlinked.iter]; exact List.mem_cons_self
  refine ⟨hlinked.views, fun n => hlinked.contains_str, fun r => contains_member, hlinked.leSelf,
    fun hcoherent => ?_⟩
  have hbound := hlinked.bound _ List.mem_cons_self
  have hin := (hcoherent.contains O.localId hbound).mpr hlocal
  rw [contains_member] at hin
  cases hin

open Worker (nodeA still)

/-- The application makes a member of its own with the name of a peer. -/
def twins : List (Op × Env) :=
  [(.get "b" none, still), (.construct "b" false, still), (.update 2 (some .online) none, still)]

theorem never_coherent_twins : ∃ O, run step (init nodeA still).after twins = some O ∧ O.Views ∧
    (∀ n, O.contains (.str n) = true ↔ ∃ r ∈ O.iter, O.name r = n) ∧
      (∀ r, O.contains (.member r) = false) ∧ O.leSelf = false ∧ ¬ O.Coherent := by
  obtain ⟨O, hO⟩ := Option.isSome_iff_exists.mp
    (show (run step (init nodeA still).after twins).isSome = true by decide +kernel)
  exact ⟨O, hO, never_coherent nodeA still twins O hO⟩

theorem not_coherent : ¬ ∀ (config : Config) (env₀ : Env) (ls : List (Op × Env)) (O : Objects),
    run step (init config env₀).after ls = some O → O.Coherent := by
  intro h
  have hcoherent := h nodeA still [] _ rfl
  have hyielded : 0 ∈ (init nodeA still).after.iter := by decide +kernel
  have hin := (hcoherent.contains 0 (by decide +kernel)).mpr hyielded
  have hout : (init nodeA still).after.contains (.member 0) = false := by decide +kernel
  rw [hout] at hin
  cases hin

end Objects

end Swim
