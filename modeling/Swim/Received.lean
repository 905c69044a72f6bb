import Swim.Notified
import Swim.Aggregates

/-!
# Swim.Received

What a node makes of the clock of received gossip, and of the same gossip received twice.

* `observed_iff` — the receive rule of a logical clock, that the next clock is above every clock
  observed: `_next_clock` only follows the clock stored, so it holds exactly where the clock was
  below it, or is stored.
* `twice_iff`    — the second delivery of the same gossip has no effect, in all cases but two: a
  member that says of itself that it is offline while it is held online, and news about the local
  member from itself or from beyond its next clock.
-/

namespace Swim

open Transition

namespace Status

/-- Going offline takes two steps; any other status is reached in one. -/
theorem toward_twice (s t : Status) :
    (s.toward t).toward t = s.toward t ↔ s ≠ online ∨ t ≠ offline := by
  cases s <;> cases t <;> decide

end Status

namespace Member

variable {m : Member} {source : Option Member} {clock nextClock : Int} {status : Status}
  {metadata : Option Metadata} {now : Time}

theorem metadataChange_updated (h : (m.isLocal && source.isSome) = false) :
    (m.updated source clock nextClock (some status) metadata now).metadataChange metadata =
      none := by
  cases metadata with
  | none => rfl
  | some μ =>
    rw [updated, if_neg (by rw [h]; exact Bool.false_ne_true)]
    refine if_neg ?_
    cases hc : m.metadataChange (some μ) with
    | none =>
      have hno : ¬ (m.metadataDict = none ∨ μ ≠ m.metadata) := by
        intro hyes
        rw [metadataChange, if_pos hyes] at hc
        cases hc
      simpa using hno
    | some ν =>
      cases metadataChange_eq_some hc
      simp

theorem statusChange_isSome (s : Status) :
    (m.statusChange (some s)).isSome = true ↔ m.status.toward s ≠ m.status := by
  simp only [statusChange]
  split
  · rename_i hne; exact iff_of_true rfl hne
  · rename_i heq; exact iff_of_false Bool.false_ne_true heq

/-- A change that was taken is a change again only on the way from online to offline. -/
theorem changes_updated (h : (m.isLocal && source.isSome) = false) :
    (m.updated source clock nextClock (some status) metadata now).changes (some status) metadata =
      true ↔ m.status = .online ∧ status = .offline := by
  have hst : (m.updated source clock nextClock (some status) metadata now).status =
      m.status.toward status := by
    rw [updated, if_neg (by rw [h]; exact Bool.false_ne_true)]
    exact toward_eq_getD status
  rw [changes, metadataChange_updated h, Option.isSome_none, Bool.or_false, statusChange_isSome,
    hst, Ne, Status.toward_twice, not_or, not_not, not_not]

/-- Given twice with this source, news about `m` change it at most once. -/
def Settles (m : Member) (nextClock : Int) (source : Name) (clock : Int) (status : Status)
    (metadata : Option Metadata) : Prop :=
  m.isLocal = true ∧
      (m.changes (some status) metadata = false ∨ source ≠ m.name ∧ clock ≤ nextClock) ∨
    m.isLocal = false ∧ (source ≠ m.name ∨ m.status ≠ .online ∨ status ≠ .offline)

theorem again_iff {x y : Member} (h : m.Tidy nextClock) (hxy : x.name = y.name) :
    ((m.applied (some x) clock nextClock (some status) metadata now).accepts (some y) clock = true ∧
        (m.applied (some x) clock nextClock (some status) metadata now).changes (some status)
          metadata = true) ↔
      ¬ m.Settles nextClock x.name clock status metadata := by
  have hbelow := h.below
  rw [accepts_iff, Option.map_some, ← hxy, applied_name, Option.some_inj]
  by_cases hc : (m.accepts (some x) clock && m.changes (some status) metadata) = true
  · obtain ⟨-, hch⟩ := (Bool.and_eq_true _ _).mp hc
    rw [applied, if_pos hc]
    cases hl : m.isLocal with
    | true =>
      -- only the clock moves, to the next one, and the change is still one
      rw [updated_clock_of_ignored (by rw [hl]; rfl), updated, if_pos (by rw [hl]; rfl)]
      show (nextClock < clock ∨ x.name = m.name) ∧ m.changes (some status) metadata = true ↔ _
      simp [Settles, hl, hch, or_comm, imp_iff_not_or]
    | false =>
      -- the clock is now at least that of the news
      have hig : (m.isLocal && (some x).isSome) = false := by rw [hl]; rfl
      rw [changes_updated hig, updated_clock hig]
      simp [Settles, hl]
  · rw [applied, if_neg hc]
    have hno : ¬ ((m.clock < clock ∨ x.name = m.name) ∧
        m.changes (some status) metadata = true) := by
      rwa [Bool.and_eq_true, accepts_iff, Option.map_some, Option.some_inj] at hc
    refine iff_of_false hno (not_not.mpr ?_)
    cases hl : m.isLocal with
    | true =>
      refine Or.inl ⟨hl, ?_⟩
      by_cases hch : m.changes (some status) metadata = true
      · refine Or.inr ⟨fun heq => hno ⟨Or.inr heq, hch⟩, ?_⟩
        by_contra hgt
        exact hno ⟨Or.inl (by omega), hch⟩
      · exact Or.inl (by simpa using hch)
    | false =>
      refine Or.inr ⟨hl, ?_⟩
      by_contra hall
      obtain ⟨heq, hon, hoff⟩ := by simpa only [not_or, not_not] using hall
      refine hno ⟨Or.inr heq, ?_⟩
      rw [changes, Bool.or_eq_true, statusChange_isSome, hon, hoff]
      exact Or.inl (by decide)

end Member

namespace Members

variable {M M' : Members} {n : Name} {m m' : Member} {env : Env}

/-! ## The receive rule -/

theorem le_nextClock_step (h : M.Ordered) {l : Op × Env} (hs : M.step l = some M') :
    M.nextClock ≤ M'.nextClock := by
  obtain ⟨-, hkeeps⟩ | ⟨m, source, clock, status, metadata, -, -, rfl⟩ := step_cases h.keyed hs
  · exact le_of_eq hkeeps.nextClock.symm
  · exact le_update_nextClock M m source clock status metadata l.2

theorem le_nextClock_run (h : M.Ordered) {ls : List (Op × Env)} (hrun : run step M ls = some M') :
    M.nextClock ≤ M'.nextClock ∧ M'.Ordered := by
  refine (always_of_along (P := fun M' => M.nextClock ≤ M'.nextClock ∧ M'.Ordered) ⟨le_rfl, h⟩
    (along_true _ ls) fun M₁ l M₂ hM₁ _ hs => ?_).last hrun
  exact ⟨le_trans hM₁.1 (le_nextClock_step hM₁.2 hs), hM₁.2.step hs⟩

def LaterAbove (M : Members) (clock : Int) : Prop :=
  ∀ ls M₁, run step M ls = some M₁ → ∀ name newStatus newMetadata env M₂ m m',
    M₁.outcome (.update name newStatus newMetadata, env) = some (.ok M₂) →
      M₁.members name = some m → M₂.members name = some m' → m'.view ≠ m.view → clock < m'.clock

theorem laterAbove (h : M.Ordered) {clock : Int} (hlt : clock < M.nextClock) :
    M.LaterAbove clock := by
  intro ls M₁ hrun name newStatus newMetadata env M₂ m m' hr hm hm' hne
  obtain ⟨hle, ho⟩ := le_nextClock_run h hrun
  obtain rfl := ho.keyed.name name m hm
  obtain ⟨src, hsrc, -, hcommit⟩ := outcome_ok ho rfl hr hm
  have hnone : src = none := Option.map_eq_none_iff.mp hsrc
  subst hnone
  rw [hcommit, commit_members, Member.applied_name, Function.update_self] at hm'
  cases hm'
  have hbelow := (ho.tidy _ m hm).below
  rw [Member.applied_none_clock hbelow fun heq => hne (by rw [heq])]
  exact lt_of_lt_of_le hlt hle

theorem commit_observed (h : m.Tidy M.nextClock) (source : Member) (clock : Int) (status : Status)
    (metadata : Option Metadata) (updated : Bool) (now : Time) :
    clock < (M.commit updated
        (m.applied (some source) clock M.nextClock (some status) metadata now)).nextClock ↔
      clock < M.nextClock ∨
        m.changes (some status) metadata = true ∧ (m.isLocal = false ∨ clock ≤ M.nextClock) := by
  have hbelow := h.below
  rw [commit_nextClock, Member.applied_clock, lt_max_iff]
  refine or_congr_right' fun hge => ?_
  have hacc : m.accepts (some source) clock = true := Member.accepts_iff.mpr (Or.inl (by omega))
  rw [hacc, Bool.true_and]
  cases hch : m.changes (some status) metadata with
  | false => simp; omega
  | true =>
    cases hl : m.isLocal with
    | false =>
      simp only [Option.isSome_some, Bool.and_true, Bool.false_eq_true, if_true, if_false,
        Int.lt_add_one_iff, le_max_left, true_or, and_true]
    | true =>
      simp only [Option.isSome_some, Bool.and_true, if_true, Int.lt_add_one_iff,
        Bool.true_eq_false, false_or, true_and]

/-- **The receive rule** holds exactly if the received clock was below the next one already, or the
call changes the member and stores the clock: for the local member it stores the next one. -/
theorem observed_iff (M : Members) (hM : M.Reachable) (name source : Name) (clock : Int)
    (status : Status) (metadata : Option Metadata) (env : Env) (M' : Members)
    (hr : M.outcome (.apply name source clock status metadata, env) = some (.ok M')) (m : Member)
    (hm : M.members name = some m) :
    (clock < M'.nextClock ∧ M'.LaterAbove clock) ↔
      clock < M.nextClock ∨
        m.changes (some status) metadata = true ∧ (m.isLocal = false ∨ clock ≤ M.nextClock) := by
  have ho := hM.ordered
  obtain rfl := ho.keyed.name name m hm
  obtain ⟨src, hsrc, hp, hcommit⟩ := outcome_ok ho rfl hr hm
  obtain ⟨x, rfl, -⟩ := Option.map_eq_some_iff.mp hsrc
  have ho' : M'.Ordered := by
    refine ho.step (l := (.apply m.name source clock status metadata, env)) ?_
    rw [step_eq, hr]; rfl
  have hiff : clock < M'.nextClock ↔ clock < M.nextClock ∨
      m.changes (some status) metadata = true ∧ (m.isLocal = false ∨ clock ≤ M.nextClock) := by
    rw [hcommit]
    exact commit_observed (ho.tidy _ m hm) x clock status metadata _ env.now
  rw [← hiff]
  exact ⟨fun h => h.1, fun h => ⟨h, laterAbove ho' h⟩⟩

open Worker (nodeA still)

theorem observed_iff_coloured : ∃ (M' : Members) (m : Member),
    (init nodeA still).after.outcome (coloured, still) = some (.ok M') ∧
      (init nodeA still).after.members "b" = some m ∧
      ((5 < M'.nextClock ∧ M'.LaterAbove 5) ↔ 5 < (init nodeA still).after.nextClock ∨
        m.changes (some .online) (some (Cluster.colour 1)) = true ∧
          (m.isLocal = false ∨ 5 ≤ (init nodeA still).after.nextClock)) := by
  have hrun : ((init nodeA still).after.outcome (coloured, still)).map Py.raised = some none := by
    decide +kernel
  obtain ⟨r, hr, hraised⟩ := Option.map_eq_some_iff.mp hrun
  cases r with
  | error e => cases hraised
  | ok M' =>
    obtain ⟨m, hm⟩ : ∃ m, (init nodeA still).after.members "b" = some m :=
      Option.isSome_iff_exists.mp (by decide +kernel)
    exact ⟨M', m, hr, hm, observed_iff _ (reachable_init nodeA still) "b" "b" 5 .online
      (some (Cluster.colour 1)) still M' hr m hm⟩

/-- After a restart the node hears of itself at clock 9, and takes clock 2 as the next one. -/
def recalled : Op := .apply "a" "b" 9 .suspect (some nodeA.localMetadata)

theorem not_observed : ¬ ∀ (M : Members), M.Reachable → ∀ (name source : Name) (clock : Int)
    (status : Status) (metadata : Option Metadata) (env : Env) (M' : Members),
    M.outcome (.apply name source clock status metadata, env) = some (.ok M') →
      clock < M'.nextClock ∧ M'.LaterAbove clock := by
  intro h
  have hrun : ((init nodeA still).after.outcome (recalled, still)).map
      (fun r => (r.raised, r.after.nextClock)) = some (none, 3) := by decide +kernel
  obtain ⟨r, hr, hraised⟩ := Option.map_eq_some_iff.mp hrun
  cases r with
  | error e => cases (Prod.mk.inj hraised).1
  | ok M' =>
    have hnext : M'.nextClock = 3 := (Prod.mk.inj hraised).2
    have hlt := (h _ (reachable_init nodeA still) "a" "b" 9 .suspect _ still M' hr).1
    omega

/-! ## The same gossip twice -/

def SameFor (M M' : Members) : Prop :=
  M'.members = M.members ∧ M'.nextClock = M.nextClock ∧ M'.listener = M.listener

theorem sameFor_commit (hm : M.members m.name = some m) (h : m.Tidy M.nextClock)
    (source : Option Member) (clock : Int) (status : Option Status) (metadata : Option Metadata)
    (now : Time) :
    M.SameFor (M.commit (m.accepts source clock && m.changes status metadata)
        (m.applied source clock M.nextClock status metadata now)) ↔
      ¬ (m.accepts source clock = true ∧ m.changes status metadata = true) := by
  rw [← Bool.and_eq_true]
  constructor
  · intro hsame hc
    have hlistener := hsame.2.2
    rw [commit_listener, if_pos hc] at hlistener
    simp at hlistener
  · intro hno
    rw [Member.applied, if_neg hno, Bool.eq_false_iff.mpr hno, commit_false_self hm h.below]
    exact ⟨rfl, rfl, rfl⟩

theorem step_apply {name source : Name} {clock : Int} {status : Status}
    {metadata : Option Metadata} (h : M.Keyed) (hm : M.members name = some m)
    (hs : M.step (.apply name source clock status metadata, env) = some M') :
    ∃ x, x.name = source ∧
      M' = (M._update m (some x) clock (some status) metadata env).after := by
  obtain ⟨m', hm', hs⟩ := Option.bind_eq_some_iff.mp hs
  obtain ⟨x, hx, rfl⟩ := Option.map_eq_some_iff.mp hs
  cases hm.symm.trans hm'
  exact ⟨x, h.name _ _ hx, rfl⟩

/-- **Duplicates.** Gossip applied a second time changes nothing and is not reported, exactly if
nothing can be applied to the member at all or the news settle. -/
theorem twice_iff (M : Members) (hM : M.Reachable) (name source : Name) (clock : Int)
    (status : Status) (hs : status.real) (metadata : Option Metadata) (env env' : Env)
    (M' M'' : Members) (hfirst : M.step (.apply name source clock status metadata, env) = some M')
    (hsecond : M'.step (.apply name source clock status metadata, env') = some M'') (m : Member)
    (hm : M.members name = some m) :
    M'.SameFor M'' ↔ m.pendingClock ≠ none ∨
      m.Settles M.nextClock source clock status metadata := by
  have ho := hM.ordered
  have ho' := ho.step hfirst
  obtain rfl := ho.keyed.name name m hm
  obtain ⟨x, rfl, hM'⟩ := step_apply ho.keyed hm hfirst
  have htidy := ho.tidy _ m hm
  by_cases hp : m.pendingClock = none
  · have hset : ∀ s ∈ some status, s.settable = true := by
      rintro s ⟨⟩; exact Status.settable_of_real hs
    have hfresh := htidy.clean hp
    rw [_update_ok hfresh hset, Py.after_ok] at hM'
    -- the entry after the first delivery
    have hm' : M'.members m.name =
        some (m.applied (some x) clock M.nextClock (some status) metadata env.now) := by
      rw [hM', commit_members, Member.applied_name, Function.update_self]
    have hname := @Member.applied_name m (some x) clock M.nextClock (some status) metadata env.now
    obtain ⟨y, hy, hM''⟩ := step_apply ho'.keyed hm' hsecond
    rw [_update_ok (Member.applied_clean hfresh) hset, Py.after_ok] at hM''
    have hself : M'.members (m.applied (some x) clock M.nextClock (some status) metadata
        env.now).name =
          some (m.applied (some x) clock M.nextClock (some status) metadata env.now) := by
      rw [hname]; exact hm'
    rw [hM'', sameFor_commit hself (ho'.tidy _ _ hm'), Member.again_iff htidy hy.symm, not_not]
    exact (or_iff_right (not_not.mpr hp)).symm
  · -- a pending clock: both calls raise and write nothing
    have hraise : ∀ y env, (M._update m (some y) clock (some status) metadata env).after = M := by
      intro y env
      rw [_update_eq htidy, if_pos hp, Py.after_error, put_self hm]
    rw [hraise] at hM'
    subst hM'
    obtain ⟨y, -, hM''⟩ := step_apply ho.keyed hm hsecond
    rw [hraise] at hM''
    subst hM''
    exact iff_of_true ⟨rfl, rfl, rfl⟩ (Or.inl hp)

theorem twice_iff_coloured : ∃ (M' M'' : Members) (m : Member),
    (init nodeA still).after.step (coloured, still) = some M' ∧
      M'.step (coloured, still) = some M'' ∧ (init nodeA still).after.members "b" = some m ∧
      (M'.SameFor M'' ↔ m.pendingClock ≠ none ∨
        m.Settles (init nodeA still).after.nextClock "b" 5 .online (some (Cluster.colour 1))) := by
  have hrun : ((init nodeA still).after.step (coloured, still)).bind (fun M' =>
      (M'.step (coloured, still)).map fun _ => true) = some true := by decide +kernel
  obtain ⟨M', hM', hrun⟩ := Option.bind_eq_some_iff.mp hrun
  obtain ⟨M'', hM'', -⟩ := Option.map_eq_some_iff.mp hrun
  obtain ⟨m, hm⟩ : ∃ m, (init nodeA still).after.members "b" = some m :=
    Option.isSome_iff_exists.mp (by decide +kernel)
  exact ⟨M', M'', m, hM', hM'', hm, twice_iff _ (reachable_init nodeA still) "b" "b" 5 .online rfl
    (some (Cluster.colour 1)) still still M' M'' hM' hM'' m hm⟩

/-- What the node recalls of itself is refuted each time it is heard. -/
theorem not_twice : ¬ ∀ (M : Members), M.Reachable → ∀ (name source : Name) (clock : Int)
    (status : Status), status.real → ∀ (metadata : Option Metadata) (env env' : Env)
    (M' M'' : Members), M.step (.apply name source clock status metadata, env) = some M' →
      M'.step (.apply name source clock status metadata, env') = some M'' → M'.SameFor M'' := by
  intro h
  have hrun : ((init nodeA still).after.step (recalled, still)).bind (fun M' =>
      (M'.step (recalled, still)).map fun M'' => (M'.nextClock, M''.nextClock)) = some (3, 4) := by
    decide +kernel
  obtain ⟨M', hM', hrun⟩ := Option.bind_eq_some_iff.mp hrun
  obtain ⟨M'', hM'', hclocks⟩ := Option.map_eq_some_iff.mp hrun
  obtain ⟨hfirst, hsecond⟩ := Prod.mk.inj hclocks
  have hsame := (h _ (reachable_init nodeA still) "a" "b" 9 .suspect rfl _ still still M' M'' hM'
    hM'').2.1
  omega

end Members

end Swim
