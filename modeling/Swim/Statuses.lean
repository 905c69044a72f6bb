import Swim.Find

/-!
# Swim.Statuses

The status index of `Members`: the sets `get_status` returns.

* `Op.Real`  — a call with real statuses only.
* `Wf.step`  — such calls keep every entry settled.
* `Indexed`  — the sets are exactly the non-local members of each status; those of the real
  statuses partition the non-local members, and those of the aggregate ones are their unions.
* `statuses_indexed` — every table that such calls on its members reach is `Indexed`. `find` only
  reads the table.
-/

namespace Swim

open Transition

namespace Status

theorem overlaps_all (s : Status) : s.overlaps all = true := by cases s <;> rfl

theorem overlaps_available (s : Status) :
    s.overlaps available = true ↔ s.overlaps online = true ∨ s.overlaps suspect = true := by
  cases s <;> decide

theorem overlaps_unavailable (s : Status) :
    s.overlaps unavailable = true ↔ s.overlaps offline = true ∨ s.overlaps suspect = true := by
  cases s <;> decide

theorem overlaps_available_or_offline (s : Status) :
    s.overlaps all = true ↔ s.overlaps available = true ∨ s.overlaps offline = true := by
  cases s <;> decide

/-- A real status overlaps itself, and no other real status. -/
theorem eq_of_overlaps {s t : Status} (hs : s.real) (ht : t.real) (h : s.overlaps t = true) :
    s = t := by
  revert hs ht h
  cases s <;> cases t <;> decide

end Status

namespace Members

variable {M M' : Members} {n : Name} {m : Member} {status : Status}

def getStatus (M : Members) (status : Status) : WeakShuffle Name := M.statuses status

/-- A call that passes real statuses only. -/
def Op.Real : Op → Prop
  | .get _ _ | .ackGossip _ _ _ => True
  | .update _ newStatus _ => ∀ s ∈ newStatus, s.real
  | .apply _ _ _ status _ => status.real

instance : DecidablePred Op.Real
  | .get _ _ | .ackGossip _ _ _ => isTrue trivial
  | .update _ newStatus _ => inferInstanceAs (Decidable (∀ s ∈ newStatus, s.real = true))
  | .apply _ _ _ status _ => inferInstanceAs (Decidable (status.real = true))

theorem Wf.step (h : M.Wf) {l : Op × Env} (hl : l.1.Real) (hs : M.step l = some M') : M'.Wf := by
  have hself : ∀ {n m}, M.members n = some m → M.members m.name = some m := by
    intro n m hm
    rw [h.name n m hm]; exact hm
  obtain ⟨op, env⟩ := l
  cases op with
  | get name validity => cases hs; exact h.get
  | update name newStatus newMetadata =>
    obtain ⟨m, hm, rfl⟩ := Option.map_eq_some_iff.mp hs
    obtain ⟨M', hM', hwf, -⟩ := @Wf._update M m none M.nextClock newStatus newMetadata env h
      (hself hm) hl
    rw [update, hM']; exact hwf
  | apply name source clock status metadata =>
    obtain ⟨m, hm, hs⟩ := Option.bind_eq_some_iff.mp hs
    obtain ⟨src, -, rfl⟩ := Option.map_eq_some_iff.mp hs
    obtain ⟨M', hM', hwf, -⟩ := @Wf._update M m (some src) clock (some status) metadata env h
      (hself hm) (by rintro s ⟨⟩; exact hl)
    rw [apply, hM']; exact hwf
  | ackGossip name source clock =>
    obtain ⟨m, -, hs⟩ := Option.bind_eq_some_iff.mp hs
    obtain ⟨src, hsrc, rfl⟩ := Option.map_eq_some_iff.mp hs
    by_cases hc : clock ≤ M.nextClock
    · rw [ackGossip_ok hc]; exact h.put_acked (hself hsrc) _
    · rw [ackGossip_error hc]; exact h

structure Indexed (M : Members) : Prop where
  exact : ∀ status n, (M.getStatus status).contains n ↔
    n ∈ M.nonLocal ∧ ∃ m, M.members n = some m ∧ m.status.overlaps status = true
  cover : (M.getStatus .online).iter ∪ (M.getStatus .offline).iter ∪ (M.getStatus .suspect).iter =
    M.nonLocal.toFinset
  disjoint : ∀ s t : Status, s.real → t.real → s ≠ t →
    Disjoint (M.getStatus s).iter (M.getStatus t).iter
  available : (M.getStatus .available).iter =
    (M.getStatus .online).iter ∪ (M.getStatus .suspect).iter
  unavailable : (M.getStatus .unavailable).iter =
    (M.getStatus .offline).iter ∪ (M.getStatus .suspect).iter
  all : (M.getStatus .all).iter = M.nonLocal.toFinset
  notLocal : ∀ status, ¬ (M.getStatus status).contains M.localName

/-- The entry of a non-local member, or of no member, is not that of the local one. -/
theorem Keyed.mem_nonLocal (h : M.Keyed) (hm : M.members n = some m) :
    n ∈ M.nonLocal ↔ m.isLocal = false := by
  rw [h.nonLocal, hm, ← Bool.not_eq_true, h.isLocal n m hm]
  simp

theorem Ordered.exact (h : M.Ordered) : n ∈ (M.getStatus status).iter ↔
    n ∈ M.nonLocal ∧ ∃ m, M.members n = some m ∧ m.status.overlaps status = true := by
  refine (h.shelved status n).trans ?_
  constructor
  · rintro ⟨m, hm, hl, ho⟩
    exact ⟨(h.keyed.mem_nonLocal hm).mpr hl, m, hm, ho⟩
  · rintro ⟨hn, m, hm, ho⟩
    exact ⟨m, hm, (h.keyed.mem_nonLocal hm).mp hn, ho⟩

theorem Ordered.union (h : M.Ordered) {s t u : Status}
    (hov : ∀ r : Status, r.overlaps s = true ↔ r.overlaps t = true ∨ r.overlaps u = true) :
    (M.getStatus s).iter = (M.getStatus t).iter ∪ (M.getStatus u).iter := by
  ext n
  rw [Finset.mem_union, h.exact, h.exact, h.exact, ← and_or_left, ← exists_or]
  refine and_congr_right fun _ => exists_congr fun m => ?_
  rw [← and_or_left]
  exact and_congr_right fun _ => hov _

theorem Ordered.all (h : M.Ordered) : (M.getStatus .all).iter = M.nonLocal.toFinset := by
  ext n
  rw [h.exact, List.mem_toFinset]
  refine ⟨fun hn => hn.1, fun hn => ⟨hn, ?_⟩⟩
  obtain ⟨m, hm⟩ := Option.isSome_iff_exists.mp ((h.keyed.nonLocal n).mp hn).2
  exact ⟨m, hm, m.status.overlaps_all⟩

theorem Ordered.disjoint (h : M.Ordered) (hwf : M.Wf) {s t : Status} (hs : s.real) (ht : t.real)
    (hst : s ≠ t) : Disjoint (M.getStatus s).iter (M.getStatus t).iter := by
  rw [Finset.disjoint_left]
  intro n hn hn'
  obtain ⟨-, m, hm, hsm⟩ := h.exact.mp hn
  obtain ⟨-, m', hm', htm⟩ := h.exact.mp hn'
  cases hm.symm.trans hm'
  have hr := (hwf.settled n m hm).real
  exact hst ((Status.eq_of_overlaps hr hs hsm).symm.trans (Status.eq_of_overlaps hr ht htm))

/-- **The status index is exact** after any calls, on members of the table, with real statuses. -/
theorem statuses_indexed (M : Members) (h : Reach step Initial (fun _ l => l.1.Real) M) :
    M.Indexed := by
  obtain ⟨ho, hwf⟩ : M.Ordered ∧ M.Wf :=
    h.invariant (P := fun M => M.Ordered ∧ M.Wf) (fun _ hM => ⟨hM.ordered, hM.wf⟩)
      fun _ _ _ _ hM hl hs => ⟨hM.1.step hs, hM.2.step hl hs⟩
  have havailable := ho.union Status.overlaps_available
  refine ⟨fun status n => ?_, ?_, fun s t hs ht hst => ho.disjoint hwf hs ht hst, havailable,
    ho.union Status.overlaps_unavailable, ho.all, fun status hc => ?_⟩
  · rw [← WeakShuffle.mem_iter]; exact ho.exact
  · rw [← ho.all, ho.union Status.overlaps_available_or_offline, havailable,
      Finset.union_right_comm]
  · rw [← WeakShuffle.mem_iter] at hc
    exact ((ho.keyed.nonLocal _).mp (ho.exact.mp hc).1).1 rfl

open Worker (still)

def flipped : List (Op × Env) :=
  [(.update "b" (some .online) none, still), (.update "c" (some .online) none, still),
    (.update "c" (some .offline) none, still)]

theorem statuses_indexed_flipped :
    ∃ M, run step (init nodeABC still).after flipped = some M ∧ M.Indexed := by
  have hrun : (run step (init nodeABC still).after flipped).isSome = true := by decide +kernel
  have hreal : Along step (fun _ l => l.1.Real) (init nodeABC still).after flipped := by
    decide +kernel
  obtain ⟨M, hM⟩ := Option.isSome_iff_exists.mp hrun
  obtain ⟨M₀, hM₀, -⟩ := init_ok nodeABC still
  rw [hM₀, Py.after_ok] at hM hreal ⊢
  exact ⟨M, hM, statuses_indexed M ((Reach.init ⟨nodeABC, still, hM₀⟩).run hreal hM)⟩

end Members

end Swim
