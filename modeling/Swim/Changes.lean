import Swim.Calls
import Swim.Clocks

/-!
# Swim.Changes

What one call of `update` or `apply` changes at a member, and which gossip follows from it.

* `Op.change`   — the call of `_update` a call makes; `outcome_ok` says what it leaves if it
  returns, and `step_cases` is the inversion of any call.
* `Differs`     — the status or the metadata changed.
* `advances_iff` — a call that changes a member advances its clock, and the member is then offered
  to every other one, in all cases but one: gossip from the member itself whose clock is not above
  the one held.
* `refutes`     — `apply` never changes the local member; what would have changed it makes it take
  the next clock, so that every other member is told.
-/

namespace Swim

open Transition

namespace Member

variable {m : Member} {source : Option Member} {clock nextClock : Int} {status : Option Status}
  {metadata : Option Metadata} {now : Time}

def Differs (m m' : Member) : Prop := m'.status ≠ m.status ∨ m'.metadataDict ≠ m.metadataDict

instance (m m' : Member) : Decidable (m.Differs m') := inferInstanceAs (Decidable (_ ∨ _))

theorem statusChange_ne {s : Status} (h : m.statusChange status = some s) : s ≠ m.status := by
  unfold statusChange at h
  split at h
  · split at h
    · rename_i hne
      cases h
      exact hne
    · cases h
  · cases h

theorem metadataChange_ne (hd : m.DictOk) {μ : Metadata} (h : m.metadataChange metadata = some μ) :
    some μ ≠ m.metadataDict := by
  unfold metadataChange at h
  split at h
  · split at h
    · rename_i hne
      cases h
      rcases hd with hd | hd
      · rw [hd]; exact Option.some_ne_none _
      · rw [hd]
        rintro ⟨⟩
        rcases hne with hne | hne
        · rw [hd] at hne; cases hne
        · exact hne rfl
    · cases h
  · cases h

/-- A change that is considered, changes something and is not ignored shows. -/
theorem differs_applied (hd : m.DictOk) :
    m.Differs (m.applied source clock nextClock status metadata now) ↔
      m.accepts source clock = true ∧ m.changes status metadata = true ∧
        (m.isLocal && source.isSome) = false := by
  constructor
  · intro h
    have hc : (m.accepts source clock && m.changes status metadata) = true := by
      by_contra hno
      rw [applied, if_neg hno] at h
      exact h.elim (fun h => h rfl) fun h => h rfl
    obtain ⟨ha, hch⟩ := (Bool.and_eq_true _ _).mp hc
    refine ⟨ha, hch, Bool.eq_false_iff.mpr fun hig => ?_⟩
    rcases h with h | h
    · exact h (applied_status_ignored hig)
    · exact h (applied_metadataDict_ignored hig)
  · rintro ⟨ha, hch, hig⟩
    rw [applied, ha, hch, Bool.and_self, if_pos rfl, updated,
      if_neg (by rw [hig]; exact Bool.false_ne_true)]
    rw [changes, Bool.or_eq_true, Option.isSome_iff_exists, Option.isSome_iff_exists] at hch
    rcases hch with ⟨s, hs⟩ | ⟨μ, hμ⟩
    · left
      show (m.statusChange status).getD m.status ≠ m.status
      rw [hs]; exact statusChange_ne hs
    · right
      show (m.metadataChange metadata).or m.metadataDict ≠ m.metadataDict
      rw [hμ]; exact metadataChange_ne hd hμ

/-- Only the validity and the known clocks may differ. -/
def Alike (m m' : Member) : Prop := ∃ validity knownClocks, m' = { m with validity, knownClocks }

theorem Same.alike {m m' : Member} (h : m.Same m') : m.Alike m' := by
  obtain ⟨validity, knownClocks, heq, -⟩ := h
  exact ⟨validity, knownClocks, heq⟩

end Member

namespace Members

variable {M M' : Members} {n : Name} {m m' : Member} {op : Op} {env : Env}

/-- The member a call updates, and the source, clock, status and metadata it passes on. -/
def Op.change (nextClock : Int) :
    Op → Option (Name × Option Name × Int × Option Status × Option Metadata)
  | .update name newStatus newMetadata => some (name, none, nextClock, newStatus, newMetadata)
  | .apply name source clock status metadata =>
    some (name, some source, clock, some status, metadata)
  | .get _ _ | .ackGossip _ _ _ => none

theorem outcome_change {source : Option Name} {clock : Int} {status : Option Status}
    {metadata : Option Metadata} {r : Py Members} (h : M.Keyed)
    (hc : op.change M.nextClock = some (n, source, clock, status, metadata))
    (hr : M.outcome (op, env) = some r) (hm : M.members n = some m) :
    ∃ src : Option Member, src.map Member.name = source ∧
      r = M._update m src clock status metadata env := by
  cases op with
  | get | ackGossip => cases hc
  | update name newStatus newMetadata =>
    cases hc
    obtain ⟨m', hm', rfl⟩ := Option.map_eq_some_iff.mp hr
    cases hm.symm.trans hm'
    exact ⟨none, rfl, rfl⟩
  | apply name source clock status metadata =>
    cases hc
    obtain ⟨m', hm', hr⟩ := Option.bind_eq_some_iff.mp hr
    obtain ⟨src, hsrc, rfl⟩ := Option.map_eq_some_iff.mp hr
    cases hm.symm.trans hm'
    exact ⟨some src, congrArg some (h.name _ _ hsrc), rfl⟩

/-- **A call that returns** found nothing pending, and wrote what `_update` makes of the member. -/
theorem outcome_ok {source : Option Name} {clock : Int} {status : Option Status}
    {metadata : Option Metadata} (h : M.Ordered)
    (hc : op.change M.nextClock = some (n, source, clock, status, metadata))
    (hr : M.outcome (op, env) = some (.ok M')) (hm : M.members n = some m) :
    ∃ src : Option Member, src.map Member.name = source ∧ m.pendingClock = none ∧
      M' = M.commit (m.accepts src clock && m.changes status metadata)
        (m.applied src clock M.nextClock status metadata env.now) := by
  obtain ⟨src, hsrc, hupdate⟩ := outcome_change h.keyed hc hr hm
  obtain ⟨hp, -, hM'⟩ := (_update_returns (h.tidy n m hm)).mp hupdate.symm
  exact ⟨src, hsrc, hp, hM'⟩

/-- `M'` is `M` up to the validity and the known clocks of its entries, and new entries. -/
structure Keeps (M M' : Members) : Prop where
  nextClock : M'.nextClock = M.nextClock
  entry : ∀ n m, M.members n = some m → ∃ m', M'.members n = some m' ∧ m.Alike m'
  origin : ∀ n m', M'.members n = some m' → (∃ m, M.members n = some m ∧ m.Alike m') ∨
    M.members n = none ∧ ∃ env, (Member.new n false env).Alike m'

theorem Looks.keeps (h : M.Looks M') : M.Keeps M' where
  nextClock := h.nextClock
  entry := by
    intro n m hm
    obtain ⟨m', hm', hs⟩ := h.entry n m hm
    exact ⟨m', hm', hs.alike⟩
  origin := by
    intro n m' hm'
    obtain ⟨m, hm, hs⟩ | ⟨hnone, env, hs⟩ := h.origin n m' hm'
    · exact Or.inl ⟨m, hm, hs.alike⟩
    · exact Or.inr ⟨hnone, env, hs.alike⟩

theorem keeps_ackGossip {member source : Member} {clock : Int}
    (hs : M.members source.name = some source) :
    M.Keeps (M.ackGossip member source clock).after := by
  by_cases hc : clock ≤ M.nextClock
  · rw [ackGossip_ok hc, Py.after_ok]
    refine ⟨rfl, fun n m hm => ?_, fun n m' hm' => ?_⟩
    · rw [put_acked_members]
      by_cases hn : n = source.name
      · subst hn
        cases hs.symm.trans hm
        exact ⟨_, Function.update_self _ _ _, _, _, rfl⟩
      · exact ⟨m, by rw [Function.update_of_ne hn]; exact hm, _, _, rfl⟩
    · rw [put_acked_members] at hm'
      by_cases hn : n = source.name
      · subst hn
        rw [Function.update_self] at hm'
        cases hm'
        exact Or.inl ⟨source, hs, _, _, rfl⟩
      · rw [Function.update_of_ne hn] at hm'
        exact Or.inl ⟨m', hm', _, _, rfl⟩
  · rw [ackGossip_error hc]
    exact ⟨rfl, fun n m hm => ⟨m, hm, _, _, rfl⟩, fun n m' hm' => Or.inl ⟨m', hm', _, _, rfl⟩⟩

/-- **Inversion of a call.** It is a call of `_update`, or it makes no change. -/
theorem step_cases (h : M.Keyed) {l : Op × Env} (hs : M.step l = some M') :
    (l.1.change M.nextClock = none ∧ M.Keeps M') ∨
      ∃ m source clock status metadata,
        l.1.change M.nextClock = some (m.name, source.map Member.name, clock, status, metadata) ∧
        M.members m.name = some m ∧
        M' = (M._update m source clock status metadata l.2).after := by
  obtain ⟨op, env⟩ := l
  cases op with
  | get name validity =>
    cases hs
    exact Or.inl ⟨rfl, h.looks_get.keeps⟩
  | update name newStatus newMetadata =>
    obtain ⟨m, hm, rfl⟩ := Option.map_eq_some_iff.mp hs
    obtain rfl := h.name _ _ hm
    exact Or.inr ⟨m, none, _, _, _, rfl, hm, rfl⟩
  | apply name source clock status metadata =>
    obtain ⟨m, hm, hs⟩ := Option.bind_eq_some_iff.mp hs
    obtain ⟨src, hsrc, rfl⟩ := Option.map_eq_some_iff.mp hs
    obtain rfl := h.name _ _ hm
    obtain rfl := h.name _ _ hsrc
    exact Or.inr ⟨m, some src, _, _, _, rfl, hm, rfl⟩
  | ackGossip name source clock =>
    obtain ⟨m, -, hs⟩ := Option.bind_eq_some_iff.mp hs
    obtain ⟨src, hsrc, rfl⟩ := Option.map_eq_some_iff.mp hs
    obtain rfl := h.name _ _ hsrc
    exact Or.inl ⟨rfl, keeps_ackGossip hsrc⟩

/-- Not gossip from the member itself, at a clock not above the one held, that would change it. -/
def Op.Fresh (m : Member) : Op → Prop
  | .apply _ source clock status metadata => m.isLocal = true ∨ m.clock < clock ∨
      source ≠ m.name ∨ m.changes (some status) metadata = false
  | .update _ _ _ | .get _ _ | .ackGossip _ _ _ => True

theorem Keyed.offered (h : M.Keyed) (hm : M.members m.name = some m)
    (hd : m.isLocal = true ∨ m.metadataDict.isSome = true) {target : Member} (hpos : 0 ≤ m.clock)
    (hknown : ∀ c, target.knownClocks m.name = some c → c < m.clock) :
    m ∈ M.getGossip target := by
  refine h.mem_getGossip.mpr ⟨hm, ?_, hd⟩
  rw [Member.needsGossip, decide_eq_true_eq]
  cases hc : target.knownClocks m.name with
  | none => exact lt_of_lt_of_le (by decide) hpos
  | some c => exact hknown c hc

theorem change_clock {source : Option Name} {clock : Int} {status : Option Status}
    {metadata : Option Metadata}
    (h : op.change M.nextClock = some (n, source, clock, status, metadata)) (hs : source = none) :
    clock = M.nextClock := by
  cases op with
  | update => cases h; rfl
  | apply => cases h; cases hs
  | get | ackGossip => cases h

/-- The clock of a changed member is above the old one unless the change is not fresh. -/
theorem fresh_iff {source : Option Member} {clock : Int} {status : Option Status}
    {metadata : Option Metadata} (h : m.Tidy M.nextClock)
    (hc : op.change M.nextClock = some (n, source.map Member.name, clock, status, metadata)) :
    (m.Differs (m.applied source clock M.nextClock status metadata env.now) →
      m.clock < (m.applied source clock M.nextClock status metadata env.now).clock) ↔
      op.Fresh m := by
  rw [Member.differs_applied h.dict]
  cases op with
  | get | ackGossip => cases hc
  | update name newStatus newMetadata =>
    refine iff_of_true (fun ⟨ha, hch, hig⟩ => ?_) trivial
    have hsrc : source = none := by
      cases source with
      | none => rfl
      | some _ => cases hc
    have hclock := change_clock hc (by rw [hsrc]; rfl)
    rw [Member.applied_clock, ha, hch, hig, hclock]
    exact lt_of_lt_of_le h.below (le_max_left _ _)
  | apply name src clock' status' metadata' =>
    cases source with
    | none => cases hc
    | some source =>
      cases hc
      show _ ↔ m.isLocal = true ∨ m.clock < clock ∨ source.name ≠ m.name ∨
        m.changes (some status') metadata = false
      constructor
      · intro hadv
        by_contra hno
        obtain ⟨hl, hle, hname, hch⟩ := by simpa only [not_or, not_lt, not_not] using hno
        have hch' : m.changes (some status') metadata = true :=
          (Bool.eq_false_or_eq_true _).resolve_right hch
        have hig : (m.isLocal && (some source).isSome) = false := by simp [hl]
        have ha : m.accepts (some source) clock = true := by simp [Member.accepts, hname]
        have hlt := hadv ⟨ha, hch', hig⟩
        rw [Member.applied_clock, ha, hch', hig] at hlt
        exact absurd hlt (not_lt.mpr (le_of_eq (max_eq_right hle)))
      · rintro hfresh ⟨ha, hch, hig⟩
        have hlt : m.clock < clock := by
          rcases hfresh with hl | hlt | hname | hno
          · simp [hl] at hig
          · exact hlt
          · rw [Member.accepts, Bool.or_eq_true, decide_eq_true_eq, beq_iff_eq] at ha
            exact ha.resolve_right fun heq => hname (Option.some.inj heq)
          · rw [hno] at hch; cases hch
        rw [Member.applied_clock, ha, hch, hig]
        exact lt_of_lt_of_le hlt (le_max_left _ _)

def OfferedToAll (M : Members) (m : Member) : Prop :=
  ∀ t target, M.members t = some target → target.isLocal = false → m ∈ M.getGossip target

/-- What has been acknowledged to a node without restarts is at most its own clock, so a member
whose clock a call moved on is offered to every other one. -/
theorem offered_commit {C : Cluster} {k : Name} {w : Worker} {updated : Bool}
    (h : Reach Cluster.next Cluster.Initial Cluster.Steady C) (hw : C.nodes k = some w)
    (hm : w.members.members m.name = some m) (hname : m'.name = m.name)
    (hlocal : m'.isLocal = m.isLocal) (hknown : m'.knownClocks = m.knownClocks)
    (hlt : m.clock < m'.clock) (hd : m'.isLocal = true ∨ m'.metadataDict.isSome = true) :
    (w.members.commit updated m').OfferedToAll m' := by
  have hk := (Cluster.reach_bounded h).1.wf k w hw
  have hmem : (w.members.commit updated m').members =
      Function.update w.members.members m.name (some m') := by rw [commit_members, hname]
  have hbound : ∀ t target, w.members.members t = some target → ∀ c,
      target.knownClocks m.name = some c → c < m'.clock := by
    intro t target ht c hc
    obtain ⟨x, hx, hle⟩ := (Cluster.reach_clocks h hw).2 t target ht _ c hc
    cases hm.symm.trans hx
    exact lt_of_le_of_lt hle hlt
  intro t target ht _
  refine (hk.toKeyed.commit hm updated hname hlocal).offered ?_ hd ?_ fun c hc => ?_
  · rw [hmem, hname, Function.update_self]
  · exact le_trans (hk.settled _ _ hm).nonneg (le_of_lt hlt)
  · rw [hname] at hc
    rw [hmem] at ht
    by_cases htn : t = m.name
    · subst htn
      rw [Function.update_self] at ht
      cases ht
      rw [hknown] at hc
      exact hbound _ m hm c hc
    · rw [Function.update_of_ne htn] at ht
      exact hbound t target ht c hc

/-- **Every visible change advances the clock**, and without restarts the change is then offered
to every other member, exactly if the call is fresh. -/
theorem advances_iff (M : Members) (hM : M.Reachable) (op : Op) (env : Env) (M' : Members)
    (hr : M.outcome (op, env) = some (.ok M')) (n : Name) (m m' : Member)
    (hn : (op.change M.nextClock).map Prod.fst = some n) (hm : M.members n = some m)
    (hm' : M'.members n = some m') :
    ((m.Differs m' → m.clock < m'.clock) ↔ op.Fresh m) ∧
      ∀ C k w, Reach Cluster.next Cluster.Initial Cluster.Steady C → C.nodes k = some w →
        w.members = M → op.Fresh m → m.Differs m' → m'.metadataDict.isSome = true →
          M'.OfferedToAll m' := by
  have ho := hM.ordered
  have hname := ho.keyed.name n m hm
  subst hname
  obtain ⟨⟨n, source, clock, status, metadata⟩, hc, hfst⟩ := Option.map_eq_some_iff.mp hn
  cases hfst
  obtain ⟨src, rfl, hp, hcommit⟩ := outcome_ok ho hc hr hm
  have heq : m' = m.applied src clock M.nextClock status metadata env.now := by
    rw [hcommit, commit_members, Member.applied_name, Function.update_self] at hm'
    exact (Option.some.inj hm').symm
  have hiff := @fresh_iff M m.name m op env src clock status metadata (ho.tidy _ m hm) hc
  rw [← heq] at hiff
  refine ⟨hiff, ?_⟩
  rintro C k w hC hw rfl hfresh hdiff hd
  rw [hcommit, ← heq]
  refine offered_commit hC hw hm ?_ ?_ ?_ (hiff.mpr hfresh hdiff) (Or.inr hd)
  · rw [heq, Member.applied_name]
  · rw [heq, Member.applied_isLocal]
  · rw [heq, Member.applied_knownClocks]

open Worker (nodeA still)

/-- `b` says that it is online with a colour, at clock 5. -/
def coloured : Op := .apply "b" "b" 5 .online (some (Cluster.colour 1))

/-- An older message of `b`, from before it chose a colour. -/
def plain : Op := .apply "b" "b" 3 .online (some ∅)

theorem advances_iff_coloured : ∃ (M' : Members) (m m' : Member),
    (init nodeA still).after.outcome (coloured, still) = some (.ok M') ∧
      (init nodeA still).after.members "b" = some m ∧ M'.members "b" = some m' ∧
      ((m.Differs m' → m.clock < m'.clock) ↔ coloured.Fresh m) := by
  have hrun : ((init nodeA still).after.outcome (coloured, still)).bind (fun r =>
      r.toOption.map fun M' => (M'.members "b").isSome) = some true := by decide +kernel
  obtain ⟨r, hr, hrun⟩ := Option.bind_eq_some_iff.mp hrun
  cases r with
  | error e => cases hrun
  | ok M' =>
    obtain ⟨m', hm'⟩ := Option.isSome_iff_exists.mp (Option.some.inj hrun)
    obtain ⟨m, hm⟩ : ∃ m, (init nodeA still).after.members "b" = some m :=
      Option.isSome_iff_exists.mp (by decide +kernel)
    exact ⟨M', m, m', hr, hm, hm', (advances_iff _ (reachable_init nodeA still) coloured still M' hr
      "b" m m' rfl hm hm').1⟩

/-- The older message takes the colour away and leaves the clock at 5. -/
theorem not_advances : ¬ ∀ (M : Members), M.Reachable → ∀ (op : Op) (env : Env) (M' : Members),
    M.outcome (op, env) = some (.ok M') → ∀ (n : Name) (m m' : Member),
      (op.change M.nextClock).map Prod.fst = some n → M.members n = some m →
        M'.members n = some m' → m.Differs m' → m.clock < m'.clock := by
  intro h
  have hrun : ((init nodeA still).after.step (coloured, still)).bind (fun M =>
      (M.outcome (plain, still)).bind fun r => r.toOption.bind fun M' =>
        (M.members "b").bind fun m => (M'.members "b").map fun m' =>
          (decide (m.Differs m'), m.clock, m'.clock)) = some (true, 5, 5) := by decide +kernel
  obtain ⟨M, hM, hrun⟩ := Option.bind_eq_some_iff.mp hrun
  obtain ⟨r, hr, hrun⟩ := Option.bind_eq_some_iff.mp hrun
  cases r with
  | error e => cases hrun
  | ok M' =>
    rw [Except.toOption, Option.bind_some] at hrun
    obtain ⟨m, hm, hrun⟩ := Option.bind_eq_some_iff.mp hrun
    obtain ⟨m', hm', heq⟩ := Option.map_eq_some_iff.mp hrun
    simp only [Prod.mk.injEq, decide_eq_true_eq] at heq
    obtain ⟨hdiff, hold, hnew⟩ := heq
    have hlt := h M ((reachable_init nodeA still).next trivial hM) plain still M' hr "b" m m' rfl
      hm hm' hdiff
    omega

/-! ## Gossip about the local member -/

/-- What is said of a member, after the transition, is not what it is. -/
def Contradicts (m : Member) (status : Status) (metadata : Option Metadata) : Prop :=
  m.status.toward status ≠ m.status ∨ ∃ μ, metadata = some μ ∧ m.metadataDict ≠ some μ

theorem changes_iff (hd : m.DictOk) (hk : m.metadataDict.isSome = true) (status : Status)
    (metadata : Option Metadata) :
    m.changes (some status) metadata = true ↔ Contradicts m status metadata := by
  have hdict : m.metadataDict = some m.metadata := by
    refine hd.resolve_left fun hnone => ?_
    rw [hnone] at hk; cases hk
  have hst : (m.statusChange (some status)).isSome = true ↔ m.status.toward status ≠ m.status := by
    simp only [Member.statusChange]
    split
    · rename_i hne; exact iff_of_true rfl hne
    · rename_i heq; exact iff_of_false Bool.false_ne_true heq
  have hmd : (m.metadataChange metadata).isSome = true ↔
      ∃ μ, metadata = some μ ∧ m.metadataDict ≠ some μ := by
    cases metadata with
    | none => exact iff_of_false Bool.false_ne_true (by rintro ⟨μ, hμ, -⟩; cases hμ)
    | some μ =>
      have hne : m.metadataDict ≠ some μ ↔ μ ≠ m.metadata := by
        rw [hdict, Ne, Option.some_inj]
        exact ⟨fun h heq => h heq.symm, fun h heq => h heq.symm⟩
      simp only [Member.metadataChange]
      split
      · rename_i hor
        refine iff_of_true rfl ⟨μ, rfl, hne.mpr (hor.resolve_left ?_)⟩
        rw [hdict]; exact Option.some_ne_none _
      · rename_i hno
        refine iff_of_false Bool.false_ne_true ?_
        rintro ⟨ν, hν, hν'⟩
        cases hν
        exact hno (Or.inr (hne.mp hν'))
  rw [Member.changes, Bool.or_eq_true, hst, hmd, Contradicts]

theorem commit_false_self (hm : M.members m.name = some m) (hlt : m.clock < M.nextClock) :
    M.commit false m = M := by
  have hcommit : M.commit false m =
      if m.clock ≥ M.nextClock then { M.put m with nextClock := m.clock + 1 } else M.put m := rfl
  rw [hcommit, if_neg (not_le.mpr hlt), put_self hm]

def refuting (M : Members) : Member :=
  { M.localMember with clock := M.nextClock, previous := M.localMember.snapshot }

theorem apply_local (h : M.Wf) {source : Member} (hsrc : source.name ≠ M.localName) {clock : Int}
    {status : Status} (hs : status.real) (metadata : Option Metadata) (env : Env) :
    M.apply M.localMember source clock status metadata env = .ok
      (if M.localMember.clock < clock ∧ M.localMember.changes (some status) metadata = true then
        M.commit true M.refuting
      else M) := by
  have hlocal := h.localMember
  rw [← h.localMember_name] at hlocal
  have hset := h.settled _ _ hlocal
  have hig : (M.localMember.isLocal && (some source).isSome) = true := by
    rw [h.localMember_isLocal]; rfl
  have hacc : M.localMember.accepts (some source) clock = true ↔ M.localMember.clock < clock := by
    rw [Member.accepts, Bool.or_eq_true, decide_eq_true_eq, beq_iff_eq]
    refine or_iff_left fun heq => hsrc ?_
    rw [← h.localMember_name]
    exact Option.some.inj heq
  rw [apply, _update_ok hset.clean (by rintro s ⟨⟩; exact Status.settable_of_real hs)]
  refine congrArg Except.ok ?_
  split
  · rename_i hc
    rw [Member.applied, hacc.mpr hc.1, hc.2, Bool.and_self, if_pos rfl, Member.updated, if_pos hig]
    rfl
  · rename_i hno
    have hfalse : (M.localMember.accepts (some source) clock &&
        M.localMember.changes (some status) metadata) = false := by
      rw [Bool.eq_false_iff, Ne, Bool.and_eq_true, hacc]
      exact hno
    rw [Member.applied, hfalse, if_neg Bool.false_ne_true]
    exact commit_false_self hlocal hset.below

/-- **Refutation.** Gossip about the node itself never changes its status and its metadata; if it
is newer and contradicts them, the node takes the next clock, which is above every clock in its
table, notifies its listener, and has gossip about itself for every other member. -/
theorem refutes (C : Cluster) (h : Reach Cluster.next Cluster.Initial Cluster.Steady C) (n : Name)
    (w : Worker) (hw : C.nodes n = some w) (source : Member) (hsrc : source.name ≠ n) (clock : Int)
    (status : Status) (hs : status.real) (metadata : Option Metadata) (env : Env) :
    ∃ M', w.members.apply w.localMember source clock status metadata env = .ok M' ∧
      M'.localMember.status = w.localMember.status ∧
      M'.localMember.statusTime = w.localMember.statusTime ∧
      M'.localMember.metadataDict = w.localMember.metadataDict ∧
      (w.localMember.clock < clock ∧ Contradicts w.localMember status metadata →
        M'.localMember.clock = w.members.nextClock ∧
        (∀ k x, w.members.members k = some x → x.clock < w.members.nextClock) ∧
        M'.listener = w.members.listener ++ [n] ∧ M'.OfferedToAll M'.localMember) ∧
      (¬ (w.localMember.clock < clock ∧ Contradicts w.localMember status metadata) →
        M' = w.members) := by
  have hsane := (Cluster.reach_bounded h).1
  have hwf := hsane.wf n w hw
  have hname := hsane.named n w hw
  have hlocal := hwf.localMember
  rw [← hwf.localMember_name] at hlocal
  have hset := hwf.settled _ _ hlocal
  have hiff := changes_iff hset.dict (hsane.told n w hw) status metadata
  have happly := @apply_local w.members hwf source (by rw [hname]; exact hsrc) clock status hs
    metadata env
  by_cases hc : w.localMember.clock < clock ∧ Contradicts w.localMember status metadata
  · rw [if_pos ⟨hc.1, hiff.mpr hc.2⟩] at happly
    have hupdated : (w.members.commit true w.members.refuting).localMember =
        w.members.refuting := by
      have hself : w.members.refuting.name = w.members.localName := hwf.localMember_name
      rw [Members.localMember, commit_localName, commit_members, hself, Function.update_self]
      rfl
    have hoffered := @offered_commit w.members.localMember w.members.refuting C n w true h hw
      hlocal rfl rfl rfl hset.below (Or.inl hwf.localMember_isLocal)
    refine ⟨_, happly, ?_⟩
    rw [hupdated]
    refine ⟨rfl, rfl, rfl, fun _ => ⟨rfl, fun k x hx => (hwf.settled k x hx).below, ?_, hoffered⟩,
      fun hno => absurd hc hno⟩
    rw [commit_listener, if_pos rfl, ← hname, ← hwf.localMember_name]
    rfl
  · rw [if_neg fun hc' => hc ⟨hc'.1, hiff.mp hc'.2⟩] at happly
    exact ⟨_, happly, rfl, rfl, rfl, fun hc' => absurd hc' hc, fun _ => rfl⟩

theorem refutes_told : ∃ C w source, run Cluster.next Cluster.pair Cluster.told = some C ∧
    C.nodes "a" = some w ∧ w.members.members "b" = some source ∧
    ∃ M', w.members.apply w.localMember source 7 .offline none still = .ok M' ∧
      M'.localMember.status = w.localMember.status := by
  have hrun : ((run Cluster.next Cluster.pair Cluster.told).bind fun C =>
      (C.nodes "a").bind fun w => (w.members.members "b").map Member.name) = some "b" := by
    decide +kernel
  obtain ⟨C, hC, hrun⟩ := Option.bind_eq_some_iff.mp hrun
  obtain ⟨w, hw, hrun⟩ := Option.bind_eq_some_iff.mp hrun
  obtain ⟨source, hsource, hname⟩ := Option.map_eq_some_iff.mp hrun
  have hsteady : Along Cluster.next Cluster.Steady Cluster.pair Cluster.told := by decide +kernel
  obtain ⟨M', hM', hstatus, -⟩ := refutes C ((Reach.init Cluster.pair_initial).run hsteady hC) "a" w
    hw source (by rw [hname]; decide) 7 .offline rfl none still
  exact ⟨C, w, source, hC, hw, hsource, M', hM', hstatus⟩

end Members

end Swim
