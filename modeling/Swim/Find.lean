import Swim.Calls
import Swim.ShuffleExact
import Swim.Suspicion

/-!
# Swim.Find

`Members.find`, for every table that any calls reach and all values `random.choice` may return.

* `drawable` — the members `choice` can return.
* `findLoop_ok`, `exists_draws` — the loop can return any set of drawable members of the wanted
  size, and no other.
* `find_iff` — so `find` keeps its promise exactly when there is nothing to choose, when only
  eligible members can be drawn, or when it does not return.

The size arithmetic of `find` is right, as it reads the set view; the draws read the list.
-/

namespace Swim

open Transition

/-! ## Draws -/

namespace WeakShuffle

variable {s : WeakShuffle Name} {k : Nat}

def drawable (s : WeakShuffle Name) : Finset Name := (s.values.filterMap s.deref).toFinset

theorem mem_drawable {n : Name} : n ∈ s.drawable ↔ ∃ draw, s.choice draw = .ok n := by
  rw [choice_eq_ok, drawable, List.mem_toFinset, List.mem_filterMap]

end WeakShuffle

namespace Members

variable {s : WeakShuffle Name} {k : Nat}

theorem findLoop_ok {draws : List Nat} {results r : Finset Name}
    (h : findLoop s k draws results = some (.ok r)) (hle : results.card ≤ k) :
    r ⊆ results ∪ s.drawable ∧ r.card = k := by
  induction draws generalizing results with
  | nil =>
    rw [findLoop] at h
    split at h
    · cases h
    · cases h
      exact ⟨Finset.subset_union_left, by omega⟩
  | cons draw draws ih =>
    rw [findLoop] at h
    split at h
    · rename_i hlt
      cases hc : s.choice draw with
      | error e => rw [hc] at h; cases h
      | ok n =>
        rw [hc] at h
        have hcard := Finset.card_insert_le n results
        obtain ⟨hsub, hk⟩ := ih h (by omega)
        refine ⟨hsub.trans ?_, hk⟩
        have hn : n ∈ s.drawable := WeakShuffle.mem_drawable.mpr ⟨draw, hc⟩
        intro x hx
        rw [Finset.mem_union, Finset.mem_insert] at hx
        rw [Finset.mem_union]
        rcases hx with (rfl | hx) | hx
        · exact Or.inr hn
        · exact Or.inl hx
        · exact Or.inr hx
    · cases h
      exact ⟨Finset.subset_union_left, by omega⟩

theorem exists_draws_list {l : List Name} (hd : ∀ n ∈ l, n ∈ s.drawable) (hnd : l.Nodup)
    {results : Finset Name} (hdisj : ∀ n ∈ l, n ∉ results) (hk : results.card + l.length = k) :
    ∃ draws, findLoop s k draws results = some (.ok (results ∪ l.toFinset)) := by
  induction l generalizing results with
  | nil =>
    refine ⟨[], ?_⟩
    rw [List.length_nil, Nat.add_zero] at hk
    rw [findLoop, if_neg (by omega)]
    simp
  | cons n l ih =>
    obtain ⟨hn, hl⟩ := List.nodup_cons.mp hnd
    obtain ⟨draw, hdraw⟩ := WeakShuffle.mem_drawable.mp (hd n List.mem_cons_self)
    have hnr : n ∉ results := hdisj n List.mem_cons_self
    have hrest : ∀ x ∈ l, x ∉ insert n results := by
      intro x hx hin
      rcases Finset.mem_insert.mp hin with rfl | hin
      · exact hn hx
      · exact hdisj x (List.mem_cons_of_mem _ hx) hin
    rw [List.length_cons] at hk
    have hcard := Finset.card_insert_of_notMem hnr
    obtain ⟨draws, hdraws⟩ := ih (fun x hx => hd x (List.mem_cons_of_mem _ hx)) hl hrest (by omega)
    refine ⟨draw :: draws, ?_⟩
    rw [findLoop, if_pos (by omega)]
    simp only [hdraw, hdraws, List.toFinset_cons, Finset.insert_union, Finset.union_insert]

theorem exists_draws {r : Finset Name} (h : r ⊆ s.drawable) :
    ∃ draws, findLoop s r.card draws ∅ = some (.ok r) := by
  obtain ⟨draws, hd⟩ := @exists_draws_list s r.card r.toList
    (fun n hn => h (Finset.mem_toList.mp hn)) r.nodup_toList ∅ (by simp) (by simp)
  exact ⟨draws, by simpa using hd⟩

/-- Every choice of the loop is among the eligible members exactly if there is nothing to choose,
only eligible members can be drawn, or the loop cannot end. -/
theorem findLoop_iff (s : WeakShuffle Name) (k : Nat) (eligible : Finset Name) :
    (∀ draws r, findLoop s k draws ∅ = some (.ok r) → r ⊆ eligible ∧ r.card = k) ↔
      k = 0 ∨ s.drawable ⊆ eligible ∨ s.drawable.card < k := by
  constructor
  · intro h
    by_contra hnot
    rw [not_or, not_or, not_lt] at hnot
    obtain ⟨hk, hsub, hle⟩ := hnot
    obtain ⟨n, hn, hne⟩ := Finset.not_subset.mp hsub
    obtain ⟨r, hnr, hr, hcard⟩ := Finset.exists_subsuperset_card_eq
      (Finset.singleton_subset_iff.mpr hn) (by rw [Finset.card_singleton]; omega) hle
    obtain ⟨draws, hd⟩ := exists_draws hr
    rw [hcard] at hd
    exact hne ((h draws r hd).1 (hnr (Finset.mem_singleton_self n)))
  · rintro h draws r hr
    obtain ⟨hsub, hcard⟩ := findLoop_ok hr (by simp)
    rw [Finset.empty_union] at hsub
    refine ⟨?_, hcard⟩
    rcases h with rfl | h | h
    · rw [Finset.card_eq_zero.mp hcard]; exact Finset.empty_subset _
    · exact hsub.trans h
    · have := Finset.card_le_card hsub
      omega

/-! ## `find` -/

def eligible (M : Members) (status : Status) (exclude : Finset Name) : Finset Name :=
  M.nonLocal.toFinset.filter fun n =>
    n ∉ exclude ∧ (M.members n).any fun m => m.status.overlaps status

theorem eligible_eq {M : Members} (hk : M.Keyed) (h : M.Shelved) (status : Status)
    (exclude : Finset Name) : M.eligible status exclude = (M.statuses status).iter \ exclude := by
  ext n
  rw [eligible, Finset.mem_filter, List.mem_toFinset, hk.nonLocal, Finset.mem_sdiff, h status n]
  constructor
  · rintro ⟨⟨hn, -⟩, hex, hany⟩
    cases hm : M.members n with
    | none => rw [hm] at hany; cases hany
    | some m =>
      rw [hm] at hany
      refine ⟨⟨m, rfl, ?_, hany⟩, hex⟩
      rw [Bool.eq_false_iff]
      exact fun hl => hn ((hk.isLocal n m hm).mp hl)
  · rintro ⟨⟨m, hm, hl, ho⟩, hex⟩
    refine ⟨⟨?_, by rw [hm]; rfl⟩, hex, by rw [hm]; exact ho⟩
    intro hn
    rw [(hk.isLocal n m hm).mpr hn] at hl
    cases hl

/-- The size arithmetic of `find` counts the eligible members. -/
theorem find_eq {M : Members} (hk : M.Keyed) (h : M.Shelved) (count : Nat) (status : Status)
    (exclude : Finset Name) (draws : List Nat) : M.find count status exclude draws =
      findLoop (M.statuses status) (min (M.eligible status exclude).card count) draws ∅ := by
  have hex : (exclude.filter fun n => (M.statuses status).contains n) =
      exclude ∩ (M.statuses status).iter := by
    ext n
    rw [Finset.mem_filter, Finset.mem_inter, WeakShuffle.mem_iter]
  have hcard : (M.statuses status).len -
      (exclude.filter fun n => (M.statuses status).contains n).card =
        (M.eligible status exclude).card := by
    rw [eligible_eq hk h, hex, Finset.card_sdiff]; rfl
  rw [← hcard]; rfl

/-- **What `find` selects.** For all values `random.choice` may return it selects as many eligible
members as it promises, exactly if there is nothing to select, every reference in the shuffle's
list is to an eligible member, or there are too few distinct references and it does not return. -/
theorem find_iff (M : Members) (hM : M.Reachable) (count : Nat) (status : Status)
    (exclude : Finset Name) :
    (∀ draws r, M.find count status exclude draws = some (.ok r) →
      r ⊆ M.eligible status exclude ∧ r.card = min (M.eligible status exclude).card count) ↔
      min (M.eligible status exclude).card count = 0 ∨
        (M.statuses status).drawable ⊆ M.eligible status exclude ∨
        (M.statuses status).drawable.card < min (M.eligible status exclude).card count := by
  obtain ⟨hk, h, -⟩ := hM.ordered
  simp only [find_eq hk h]
  exact findLoop_iff _ _ _

def nodeABC : Config := { Worker.nodeA with peers := ["b", "c"] }

theorem find_iff_nodeABC :
    (∀ draws r, (init nodeABC Worker.still).after.find 1 .offline {"b"} draws = some (.ok r) →
      r ⊆ (init nodeABC Worker.still).after.eligible .offline {"b"} ∧
        r.card = min ((init nodeABC Worker.still).after.eligible .offline {"b"}).card 1) ↔
      min ((init nodeABC Worker.still).after.eligible .offline {"b"}).card 1 = 0 ∨
        ((init nodeABC Worker.still).after.statuses .offline).drawable ⊆
          (init nodeABC Worker.still).after.eligible .offline {"b"} ∨
        ((init nodeABC Worker.still).after.statuses .offline).drawable.card <
          min ((init nodeABC Worker.still).after.eligible .offline {"b"}).card 1 :=
  find_iff _ (reachable_init nodeABC Worker.still) 1 .offline {"b"}

/-- The excluded member is drawn and selected. -/
theorem find_selects_excluded : ¬ ∀ (M : Members), M.Reachable → ∀ count status exclude draws r,
    M.find count status exclude draws = some (.ok r) →
      r ⊆ M.eligible status exclude ∧ r.card = min (M.eligible status exclude).card count := by
  intro h
  have hfind : (init nodeABC Worker.still).after.find 1 .offline {"b"} [0] = some (.ok {"b"}) := by
    decide +kernel
  have hsub := (h _ (reachable_init nodeABC Worker.still) 1 .offline {"b"} [0] {"b"} hfind).1
  have hnot : "b" ∉ (init nodeABC Worker.still).after.eligible .offline {"b"} := by decide +kernel
  exact hnot (hsub (Finset.mem_singleton_self _))

end Members

end Swim
