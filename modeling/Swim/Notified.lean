import Swim.Changes

/-!
# Swim.Notified

The listener of `Members`: what a call that returns reports, against what it changed.

* `Member.view`   — what an application sees of a member: clock, status and metadata.
* `view_applied`  — `_save` reports an update exactly if the view changed, on each of its paths: the
  newer clock, the old clock of the member itself, and the ignored change of the local member.
* `notifies`      — the listener is told once, of the member concerned, exactly if its view changed.
-/

namespace Swim

namespace Member

/-- Clock, status and metadata; unknown metadata are not the empty ones. -/
def view (m : Member) : Int × Status × Option Metadata := (m.clock, m.status, m.metadataDict)

section Applied

variable {m : Member} {source : Option Member} {clock nextClock : Int} {status : Option Status}
  {metadata : Option Metadata} {now : Time}

theorem Differs.view_ne {m' : Member} (h : m.Differs m') : m'.view ≠ m.view := by
  intro heq
  obtain ⟨-, hst, hmd⟩ := by simpa only [view, Prod.mk.injEq] using heq
  exact h.elim (fun hne => hne hst) fun hne => hne hmd

theorem view_applied (h : m.Tidy nextClock) :
    (m.applied source clock nextClock status metadata now).view ≠ m.view ↔
      (m.accepts source clock && m.changes status metadata) = true := by
  constructor
  · intro hne
    by_contra hno
    rw [applied, if_neg hno] at hne
    exact hne rfl
  · intro hc
    cases hig : m.isLocal && source.isSome with
    | true =>
      -- the view shows the clock, which was below the next one
      intro heq
      have hclock : (m.applied source clock nextClock status metadata now).clock = m.clock :=
        congrArg Prod.fst heq
      rw [applied_clock, if_pos hc, if_pos hig] at hclock
      exact absurd hclock (ne_of_gt h.below)
    | false =>
      obtain ⟨ha, hch⟩ := (Bool.and_eq_true _ _).mp hc
      exact ((differs_applied h.dict).mpr ⟨ha, hch, hig⟩).view_ne

theorem applied_previous : (m.applied source clock nextClock status metadata now).previous =
    if m.accepts source clock && m.changes status metadata then m.snapshot else m.previous := by
  unfold applied updated
  split
  · split <;> rfl
  · rfl

theorem applied_statusTime : (m.applied source clock nextClock status metadata now).statusTime =
    if (m.applied source clock nextClock status metadata now).status ≠ m.status then now
    else m.statusTime := by
  unfold applied updated
  split
  · split
    · rw [if_neg (not_not.mpr rfl)]
    · cases hs : m.statusChange status with
      | none => simp
      | some s => simp [statusChange_ne hs]
  · rw [if_neg (not_not.mpr rfl)]

end Applied

end Member

namespace Members

/-- What a call that returned did to the member of the name `n`, and to everything else: the
listener is told exactly of a changed view. -/
structure Notifies (M M' : Members) (n : Name) (m m' : Member) (now : Time) : Prop where
  listener : M'.listener = if m'.view ≠ m.view then M.listener ++ [n] else M.listener
  previous : m'.previous = if m'.view ≠ m.view then m.snapshot else m.previous
  statusTime : m'.statusTime = if m'.status ≠ m.status then now else m.statusTime
  clean : m'.Clean
  others : ∀ k, k ≠ n → M'.members k = M.members k

/-- **Change notification is exact**, for every call that returns. -/
theorem notifies (M : Members) (hM : M.Reachable) (op : Op) (env : Env) (M' : Members)
    (hr : M.outcome (op, env) = some (.ok M')) (n : Name) (m : Member)
    (hn : (op.change M.nextClock).map Prod.fst = some n) (hm : M.members n = some m) :
    ∃ m', M'.members n = some m' ∧ M.Notifies M' n m m' env.now := by
  have ho := hM.ordered
  have htidy := ho.tidy n m hm
  obtain rfl := ho.keyed.name n m hm
  obtain ⟨⟨_, source, clock, status, metadata⟩, hc, hfst⟩ := Option.map_eq_some_iff.mp hn
  cases hfst
  obtain ⟨src, -, hp, hcommit⟩ := outcome_ok ho hc hr hm
  have hview := @Member.view_applied m src clock M.nextClock status metadata env.now htidy
  have hmem : M'.members = Function.update M.members m.name
      (some (m.applied src clock M.nextClock status metadata env.now)) := by
    rw [hcommit, commit_members, Member.applied_name]
  refine ⟨_, by rw [hmem, Function.update_self], ?_, ?_, Member.applied_statusTime,
    Member.applied_clean (htidy.clean hp), ?_⟩
  · rw [hcommit, commit_listener, Member.applied_name]
    exact if_congr hview.symm rfl rfl
  · rw [Member.applied_previous]
    exact if_congr hview.symm rfl rfl
  · intro k hk
    rw [hmem, Function.update_of_ne hk]

open Worker (nodeA still)

theorem notifies_coloured : ∃ (M' : Members) (m m' : Member),
    (init nodeA still).after.outcome (coloured, still) = some (.ok M') ∧
      (init nodeA still).after.members "b" = some m ∧ M'.members "b" = some m' ∧
      (init nodeA still).after.Notifies M' "b" m m' still.now := by
  have hrun : ((init nodeA still).after.outcome (coloured, still)).map Py.raised = some none := by
    decide +kernel
  obtain ⟨r, hr, hraised⟩ := Option.map_eq_some_iff.mp hrun
  cases r with
  | error e => cases hraised
  | ok M' =>
    obtain ⟨m, hm⟩ : ∃ m, (init nodeA still).after.members "b" = some m :=
      Option.isSome_iff_exists.mp (by decide +kernel)
    obtain ⟨m', hm', hnotifies⟩ := notifies _ (reachable_init nodeA still) coloured still M' hr "b"
      m rfl hm
    exact ⟨M', m, m', hr, hm, hm', hnotifies⟩

end Members

end Swim
