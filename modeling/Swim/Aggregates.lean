import Swim.Changes

/-!
# Swim.Aggregates

Aggregate statuses, which must not be assigned: what the guard of `Status.transition` keeps out of
the table, and what a rejected call leaves behind.

* `Member.Heeds` — a call gets past the guard, is considered and is not ignored; `step_status` is
  the status of an entry after any call, also one that raises.
* `real_iff`     — every status stays real, and changes along the edges of the status graph only,
  exactly if no call gets `ALL` past the guard, which knows the other two aggregates.
* `rejected_iff` — a call rejected with `ValueError` leaves the table as it was exactly if its
  clock is not above the clock of the member; otherwise the clock stays pending.
* `locked`       — and then every later call for the member raises, whatever is called between.
-/

namespace Swim

open Transition

namespace Status

def edge : Status → Status → Bool
  | offline, online | online, suspect | suspect, online | suspect, offline => true
  | _, _ => false

theorem toward_edge {s t : Status} (hs : s.real) (ht : (s.toward t).real) :
    s.toward t = s ∨ s.edge (s.toward t) = true := by
  revert hs ht
  cases s <;> cases t <;> decide

theorem toward_real_iff {s t : Status} (hs : s.real) (ht : t.settable) :
    (s.toward t).real = true ↔ t ≠ all := by
  revert hs ht
  cases s <;> cases t <;> decide

end Status

/-- A call with this source and clock moves the status of `m` toward `s`: nothing is pending, the
guard lets `s` through, and the call is considered and not ignored. -/
def Member.Heeds (m : Member) (source : Option Name) (clock : Int) (s : Status) : Prop :=
  m.pendingClock = none ∧ s.settable = true ∧ (m.isLocal && source.isSome) = false ∧
    (m.clock < clock ∨ source = some m.name)

theorem Member.accepts_iff {m : Member} {source : Option Member} {clock : Int} :
    m.accepts source clock = true ↔ m.clock < clock ∨ source.map Member.name = some m.name := by
  rw [Member.accepts, Bool.or_eq_true, decide_eq_true_eq, beq_iff_eq]

namespace Members

variable {M M' : Members} {n : Name} {m m' : Member} {l : Op × Env}

/-! ## The status of an entry after a call -/

theorem _update_status (h : m.Tidy M.nextClock) (source : Option Member) (clock : Int)
    (status : Option Status) (metadata : Option Metadata) (env : Env)
    (hm' : (M._update m source clock status metadata env).after.members m.name = some m') :
    (∀ s ∈ status, m.Heeds (source.map Member.name) clock s → m'.status = m.status.toward s) ∧
      ((∀ s ∈ status, ¬ m.Heeds (source.map Member.name) clock s) → m'.status = m.status) := by
  have hkeep : m'.status = m.status → (∀ s ∈ status, ¬ m.Heeds (source.map Member.name) clock s) →
      (∀ s ∈ status, m.Heeds (source.map Member.name) clock s → m'.status = m.status.toward s) ∧
        ((∀ s ∈ status, ¬ m.Heeds (source.map Member.name) clock s) → m'.status = m.status) :=
    fun hst hno => ⟨fun s hs hh => absurd hh (hno s hs), fun _ => hst⟩
  rw [_update_eq h] at hm'
  split at hm'
  · rename_i hp
    cases hm'.symm.trans (Function.update_self _ _ _)
    exact hkeep rfl fun _ _ hh => hp hh.1
  · rename_i hp
    split at hm'
    · rename_i hs
      rw [Py.after_ok, commit_members, Member.applied_name, Function.update_self] at hm'
      cases hm'
      by_cases hig : (m.isLocal && source.isSome) = true
      · refine hkeep (Member.applied_status_ignored hig) fun _ _ hh => ?_
        rw [← Option.isSome_map, hh.2.2.1] at hig
        cases hig
      · rw [Bool.not_eq_true] at hig
        cases hacc : m.accepts source clock with
        | false =>
          refine hkeep (by rw [Member.applied_of_not_accepts hacc]) fun _ _ hh => ?_
          rw [Member.accepts_iff.mpr hh.2.2.2] at hacc
          cases hacc
        | true =>
          cases status with
          | none => exact ⟨by rintro s ⟨⟩, fun _ => Member.applied_status_none⟩
          | some s =>
            have hh : m.Heeds (source.map Member.name) clock s :=
              ⟨not_not.mp hp, hs s rfl, by rw [Option.isSome_map]; exact hig,
                Member.accepts_iff.mp hacc⟩
            refine ⟨?_, fun hno => absurd hh (hno s rfl)⟩
            rintro t ⟨⟩ -
            exact Member.applied_status_some hig hacc s
    · rename_i hs
      cases hm'.symm.trans (Function.update_self _ _ _)
      refine hkeep rfl fun s hmem hh => hs fun t ht => ?_
      cases hmem.symm.trans ht
      exact hh.2.1

def HeedsAt (M : Members) (op : Op) (n : Name) (m : Member) (s : Status) : Prop :=
  ∃ source clock metadata, op.change M.nextClock = some (n, source, clock, some s, metadata) ∧
    m.Heeds source clock s

/-- **The status of an entry after a call**, also one that raises. -/
theorem step_status (h : M.Ordered) (hs : M.step l = some M') (hm : M.members n = some m) :
    ∃ m', M'.members n = some m' ∧
      (∀ s, M.HeedsAt l.1 n m s → m'.status = m.status.toward s) ∧
      ((∀ s, ¬ M.HeedsAt l.1 n m s) → m'.status = m.status) := by
  obtain ⟨hc, hkeeps⟩ | ⟨x, source, clock, status, metadata, hc, hx, rfl⟩ := step_cases h.keyed hs
  · obtain ⟨m', hentry, _, _, rfl⟩ := hkeeps.entry n m hm
    refine ⟨_, hentry, fun s hat => ?_, fun _ => rfl⟩
    obtain ⟨_, _, _, hsome, -⟩ := hat
    rw [hc] at hsome; cases hsome
  · by_cases hn : n = x.name
    · subst hn
      cases hx.symm.trans hm
      obtain ⟨m', -, hmem⟩ := _update_members M m source clock status metadata l.2
      have hm' : (M._update m source clock status metadata l.2).after.members m.name = some m' := by
        rw [hmem, Function.update_self]
      obtain ⟨hto, hkeep⟩ := _update_status (h.tidy _ m hm) source clock status metadata l.2 hm'
      refine ⟨m', hm', fun s hat => ?_, fun hno => hkeep fun s hmem hh => ?_⟩
      · obtain ⟨_, _, _, hsome, hh⟩ := hat
        cases hc.symm.trans hsome
        exact hto s rfl hh
      · rw [Option.mem_def] at hmem
        subst hmem
        exact hno s ⟨_, _, _, hc, hh⟩
    · refine ⟨m, by rw [_update_of_ne hn]; exact hm, fun s hat => ?_, fun _ => rfl⟩
      obtain ⟨_, _, _, hsome, -⟩ := hat
      cases hc.symm.trans hsome
      exact absurd rfl hn

theorem step_new (h : M.Ordered) (hs : M.step l = some M') (hnone : M.members n = none)
    (hm' : M'.members n = some m') : m'.status = .offline := by
  obtain ⟨-, hkeeps⟩ | ⟨x, source, clock, status, metadata, -, hx, rfl⟩ := step_cases h.keyed hs
  · obtain ⟨m, hm, -⟩ | ⟨-, env, _, _, rfl⟩ := hkeeps.origin n m' hm'
    · rw [hnone] at hm; cases hm
    · rfl
  · have hn : n ≠ x.name := by
      rintro rfl
      rw [hnone] at hx; cases hx
    rw [_update_of_ne hn, hnone] at hm'
    cases hm'

/-! ## No aggregate is stored -/

def Real (M : Members) : Prop := ∀ n m, M.members n = some m → m.status.real = true

def FollowsEdges (M : Members) (l : Op × Env) : Prop :=
  ∀ M', M.step l = some M' → ∀ n m m', M.members n = some m → M'.members n = some m' →
    m'.status = m.status ∨ m.status.edge m'.status = true

def ShunsAll (M : Members) (l : Op × Env) : Prop :=
  ∀ n m, M.members n = some m → ¬ M.HeedsAt l.1 n m .all

theorem HeedsAt.settable {s : Status} {op : Op} (h : M.HeedsAt op n m s) : s.settable = true := by
  obtain ⟨_, _, _, -, -, hset, -⟩ := h
  exact hset

theorem Real.step_iff (hreal : M.Real) (h : M.Ordered) (hs : M.step l = some M') :
    M'.Real ↔ M.ShunsAll l := by
  constructor
  · intro hreal' n m hm hat
    obtain ⟨m', hm', hto, -⟩ := step_status h hs hm
    have hr := hreal' n m' hm'
    rw [hto _ hat] at hr
    exact (Status.toward_real_iff (hreal n m hm) rfl).mp hr rfl
  · intro hno n m' hm'
    cases hm : M.members n with
    | none => rw [step_new h hs hm hm']; rfl
    | some m =>
      obtain ⟨x, hx, hto, hkeep⟩ := step_status h hs hm
      cases hx.symm.trans hm'
      by_cases hat : ∃ s, M.HeedsAt l.1 n m s
      · obtain ⟨s, hat⟩ := hat
        rw [hto s hat]
        refine (Status.toward_real_iff (hreal n m hm) hat.settable).mpr ?_
        rintro rfl
        exact hno n m hm hat
      · rw [hkeep (not_exists.mp hat)]
        exact hreal n m hm

theorem Real.followsEdges (hreal : M.Real) (h : M.Ordered) (hs : M.step l = some M')
    (hreal' : M'.Real) : M.FollowsEdges l := by
  intro M'' hs' n m m' hm hm'
  cases hs.symm.trans hs'
  obtain ⟨x, hx, hto, hkeep⟩ := step_status h hs hm
  cases hx.symm.trans hm'
  by_cases hat : ∃ s, M.HeedsAt l.1 n m s
  · obtain ⟨s, hat⟩ := hat
    have hr := hreal' n m' hm'
    rw [hto s hat] at hr ⊢
    exact Status.toward_edge (hreal n m hm) hr
  · exact Or.inl (hkeep (not_exists.mp hat))

theorem real_initial (h : Initial M) : M.Real := fun n m hm => (h.wf.settled n m hm).real

/-- **Aggregate statuses are never stored**, and statuses change along the edges, exactly in the
runs in which no call gets `ALL` past the guard. -/
theorem real_iff (config : Config) (env : Env) (ls : List (Op × Env)) :
    (Always step Real (init config env).after ls ∧
        Along step FollowsEdges (init config env).after ls) ↔
      Along step ShunsAll (init config env).after ls := by
  obtain ⟨M, hM, -⟩ := init_ok config env
  have hinit : Initial M := ⟨config, env, hM⟩
  rw [hM, Py.after_ok]
  have hiff : Always step Real M ls ↔ Along step ShunsAll M ls := by
    refine always_iff_along (J := Ordered) (H := fun _ _ => True) ?_ hinit.ordered
      (real_initial hinit) (along_true _ _)
    intro M l M' ho hreal _ hs
    exact ⟨hreal.step_iff ho hs, fun _ => ho.step hs⟩
  refine ⟨fun hall => hiff.mp hall.1, fun hno => ⟨hiff.mpr hno, ?_⟩⟩
  have hgood : Always step (fun M => M.Real ∧ M.Ordered) M ls := by
    refine always_of_along ⟨real_initial hinit, hinit.ordered⟩ hno ?_
    intro M l M' hgood hl hs
    exact ⟨(hgood.1.step_iff hgood.2 hs).mpr hl, hgood.2.step hs⟩
  exact hgood.along fun M l M' hM hM' hs => hM.1.followsEdges hM.2 hs hM'.1

open Worker (nodeA still)

/-- The application assigns `ALL` to `b`. -/
def assigned : List (Op × Env) := [(.update "b" (some .all) none, still)]

theorem not_real : ¬ ∀ (config : Config) (env : Env) (ls : List (Op × Env)),
    Always step Real (init config env).after ls ∧
      Along step FollowsEdges (init config env).after ls := by
  intro h
  have hrun : ((run step (init nodeA still).after assigned).bind fun M =>
      (M.members "b").map Member.status) = some .all := by decide +kernel
  obtain ⟨M, hM, hb⟩ := Option.bind_eq_some_iff.mp hrun
  obtain ⟨m, hm, hst⟩ := Option.map_eq_some_iff.mp hb
  have hreal := (h nodeA still assigned).1.last hM "b" m hm
  rw [hst] at hreal
  cases hreal

/-! ## What a rejected call leaves -/

theorem _update_rejected (h : m.Tidy M.nextClock) {source : Option Member} {clock : Int}
    {status : Option Status} {metadata : Option Metadata} {env : Env} {r : Raised Members}
    (hr : M._update m source clock status metadata env = .error r) (hv : r.error = .value) :
    m.pendingClock = none ∧
      r.state = M.put (m.pend (if clock > m.clock then some clock else none) none none) := by
  rw [_update_eq h] at hr
  split at hr
  · cases hr; cases hv
  · rename_i hp
    split at hr
    · cases hr
    · cases hr
      exact ⟨not_not.mp hp, rfl⟩

/-- Only a call of `_update` raises `ValueError`. -/
theorem outcome_rejected {op : Op} {env : Env} {r : Raised Members} (h : M.Keyed)
    (hr : M.outcome (op, env) = some (.error r)) (hv : r.error = .value) :
    ∃ m source clock status metadata,
      op.change M.nextClock = some (m.name, source.map Member.name, clock, status, metadata) ∧
      M.members m.name = some m ∧
      M._update m source clock status metadata env = .error r := by
  cases op with
  | get name validity => cases hr
  | update name newStatus newMetadata =>
    obtain ⟨m, hm, hr⟩ := Option.map_eq_some_iff.mp hr
    obtain rfl := h.name _ _ hm
    exact ⟨m, none, _, _, _, rfl, hm, hr⟩
  | apply name source clock status metadata =>
    obtain ⟨m, hm, hr⟩ := Option.bind_eq_some_iff.mp hr
    obtain ⟨src, hsrc, hr⟩ := Option.map_eq_some_iff.mp hr
    obtain rfl := h.name _ _ hm
    obtain rfl := h.name _ _ hsrc
    exact ⟨m, some src, _, _, _, rfl, hm, hr⟩
  | ackGossip name source clock =>
    obtain ⟨m, -, hr⟩ := Option.bind_eq_some_iff.mp hr
    obtain ⟨src, -, hr⟩ := Option.map_eq_some_iff.mp hr
    by_cases hc : clock ≤ M.nextClock
    · rw [ackGossip_ok hc] at hr; cases hr
    · rw [ackGossip_error hc] at hr; cases hr; cases hv

/-- `apply` with a clock not above the one held; `update` always has a newer one. -/
def NotNewer (M : Members) : Op → Prop
  | .apply name _ clock _ _ => ∀ m, M.members name = some m → clock ≤ m.clock
  | .update _ _ _ | .get _ _ | .ackGossip _ _ _ => False

theorem notNewer_iff {op : Op} {source : Option Name} {clock : Int} {status : Option Status}
    {metadata : Option Metadata} (h : m.Tidy M.nextClock) (hm : M.members m.name = some m)
    (hc : op.change M.nextClock = some (m.name, source, clock, status, metadata)) :
    M.NotNewer op ↔ clock ≤ m.clock := by
  cases op with
  | get | ackGossip => cases hc
  | update => cases hc; exact iff_of_false id (not_le.mpr h.below)
  | apply =>
    cases hc
    refine ⟨fun hall => hall m hm, fun hle x hx => ?_⟩
    cases hm.symm.trans hx
    exact hle

theorem put_pend_iff (hm : M.members m.name = some m) (h : m.Clean) (pc : Option Int) :
    M.put (m.pend pc none none) = M ↔ pc = none := by
  constructor
  · intro heq
    have hentry : (M.put (m.pend pc none none)).members m.name = some (m.pend pc none none) :=
      Function.update_self _ _ _
    rw [heq, hm] at hentry
    have hpend := congrArg (fun x => x.map Member.pendingClock) hentry
    exact (Option.some.inj hpend).symm.trans h.1
  · rintro rfl
    rw [h.pend_eq, put_self hm]

/-- Every later call has the outcome it has from `M'`. -/
def Indistinguishable (M M' : Members) : Prop :=
  ∀ ls l, (run step M ls).bind (fun M => M.outcome l) = (run step M' ls).bind fun M => M.outcome l

/-- **A rejected status leaves no trace** in exactly the calls of `apply` whose clock is not above
the member's. -/
theorem rejected_iff (M : Members) (hM : M.Reachable) (op : Op) (env : Env) (r : Raised Members)
    (hr : M.outcome (op, env) = some (.error r)) (hv : r.error = .value) :
    (r.state = M ∧ r.state.Indistinguishable M) ↔ M.NotNewer op := by
  have ho := hM.ordered
  obtain ⟨m, source, clock, status, metadata, hc, hm, hupdate⟩ := outcome_rejected ho.keyed hr hv
  have htidy := ho.tidy _ m hm
  obtain ⟨hp, hstate⟩ := _update_rejected htidy hupdate hv
  have hiff : r.state = M ↔ clock ≤ m.clock := by
    rw [hstate, put_pend_iff hm (htidy.clean hp)]
    split
    · rename_i hlt; exact iff_of_false (by simp) (not_le.mpr hlt)
    · rename_i hle; exact iff_of_true rfl (not_lt.mp hle)
  rw [notNewer_iff htidy hm hc, ← hiff]
  refine ⟨fun h => h.1, fun h => ⟨h, ?_⟩⟩
  rw [h]
  exact fun _ _ => rfl

def misled : Op := .apply "b" "a" 0 .unavailable none

theorem rejected_iff_misled : ∃ r : Raised Members,
    (init nodeA still).after.outcome (misled, still) = some (.error r) ∧
      ((r.state = (init nodeA still).after ∧ r.state.Indistinguishable (init nodeA still).after) ↔
        (init nodeA still).after.NotNewer misled) := by
  have hrun : ((init nodeA still).after.outcome (misled, still)).map Py.raised =
      some (some .value) := by decide +kernel
  obtain ⟨x, hx, hraised⟩ := Option.map_eq_some_iff.mp hrun
  cases x with
  | ok M => cases hraised
  | error r =>
    have hv : r.error = .value := Option.some.inj hraised
    exact ⟨r, hx, rejected_iff _ (reachable_init nodeA still) misled still r hx hv⟩

def Locked (M : Members) (n : Name) : Prop := ∃ m, M.members n = some m ∧ m.pendingClock ≠ none

theorem Locked.step (hlock : M.Locked n) (h : M.Ordered) (hs : M.step l = some M') :
    M'.Locked n := by
  obtain ⟨m, hm, hp⟩ := hlock
  obtain ⟨-, hkeeps⟩ | ⟨x, source, clock, status, metadata, -, hx, rfl⟩ := step_cases h.keyed hs
  · obtain ⟨m', hm', _, _, rfl⟩ := hkeeps.entry n m hm
    exact ⟨_, hm', hp⟩
  · by_cases hn : n = x.name
    · subst hn
      cases hx.symm.trans hm
      rw [_update_eq (h.tidy _ m hm), if_pos hp]
      exact ⟨m, Function.update_self _ _ _, hp⟩
    · exact ⟨m, by rw [_update_of_ne hn]; exact hm, hp⟩

/-- **Any other rejected call locks the member**: whatever is called afterwards, every call of
`update` and `apply` for it fails the assertion that nothing is pending. -/
theorem locked (hM : M.Reachable) {op : Op} {env : Env} {r : Raised Members}
    (hr : M.outcome (op, env) = some (.error r)) (hv : r.error = .value) (hnew : ¬ M.NotNewer op)
    (hn : (op.change M.nextClock).map Prod.fst = some n) {ls : List (Op × Env)}
    (hrun : run step r.state ls = some M') {op' : Op} {env' : Env} {r' : Py Members}
    (hn' : (op'.change M'.nextClock).map Prod.fst = some n)
    (hr' : M'.outcome (op', env') = some r') : r'.raised = some .assertion := by
  have ho := hM.ordered
  obtain ⟨m, source, clock, status, metadata, hc, hm, hupdate⟩ := outcome_rejected ho.keyed hr hv
  have htidy := ho.tidy _ m hm
  obtain ⟨-, hstate⟩ := _update_rejected htidy hupdate hv
  rw [hc] at hn
  cases hn
  have hlock : r.state.Locked m.name := by
    rw [notNewer_iff htidy hm hc, not_le] at hnew
    rw [hstate, if_pos hnew]
    exact ⟨_, Function.update_self _ _ _, Option.some_ne_none _⟩
  have hordered : r.state.Ordered := by
    have hafter := ho._update hm source clock status metadata env
    rwa [hupdate] at hafter
  -- the clock stays pending in every later table
  obtain ⟨⟨x, hx, hp⟩, ho'⟩ := (always_of_along (P := fun M => M.Locked m.name ∧ M.Ordered)
    ⟨hlock, hordered⟩ (along_true _ ls) fun M l M' h _ hs =>
      ⟨h.1.step h.2 hs, h.2.step hs⟩).last hrun
  obtain ⟨⟨n, source', clock', status', metadata'⟩, hc', hfst⟩ := Option.map_eq_some_iff.mp hn'
  cases hfst
  obtain ⟨src, -, rfl⟩ := outcome_change ho'.keyed hc' hr' hx
  rw [_update_eq (ho'.tidy _ x hx), if_pos hp]
  rfl

/-- A rejected `update` is noticed in the table it leaves. -/
theorem not_rejected : ¬ ∀ (M : Members), M.Reachable → ∀ (op : Op) (env : Env)
    (r : Raised Members), M.outcome (op, env) = some (.error r) → r.error = .value →
      r.state = M ∧ r.state.Indistinguishable M := by
  intro h
  have hrun : ((init nodeA still).after.outcome (.update "b" (some .available) none, still)).map
      (fun r => (r.raised, (r.after.members "b").map Member.pendingClock)) =
        some (some .value, some (some 2)) := by decide +kernel
  obtain ⟨x, hx, hraised⟩ := Option.map_eq_some_iff.mp hrun
  cases x with
  | ok M => cases hraised
  | error r =>
    obtain ⟨hv, hp⟩ := Prod.mk.inj hraised
    have heq := (h _ (reachable_init nodeA still) _ still r hx (Option.some.inj hv)).1
    rw [Py.after_error, heq] at hp
    exact absurd hp (by decide +kernel)

end Members
end Swim
