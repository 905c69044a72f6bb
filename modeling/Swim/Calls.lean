import Swim.MembersInvariant
import Swim.Transition.Run

/-!
# Swim.Calls

A table under any sequence of calls, with any arguments, also calls that raise.

* `outcome` — what a call returns or raises; `step` goes on with the state it leaves.
* `_update_eq` — the three ways a call of `_update` can end.
* `Tidy` — between any two calls, at most a clock is pending, and clocks are below `nextClock`. A
  clock is left pending by a call that raised, and then every later call for that member raises.
* `Shelved` — `__iter__` of the shuffle of a status gives the non-local members of that status.
* `Reachable` — the tables that calls lead to; they are `Keyed`, `Shelved` and `Tidy`.
-/

namespace Swim

open Transition

structure Member.Tidy (m : Member) (nextClock : Int) : Prop where
  status : m.pendingStatus = none
  metadata : m.pendingMetadata = none
  dict : m.DictOk
  nonneg : 0 ≤ m.clock
  below : m.clock < nextClock

namespace Member

variable {m : Member} {source : Option Member} {clock nextClock : Int} {status : Option Status}
  {metadata : Option Metadata} {now : Time}

theorem Tidy.clean (h : m.Tidy nextClock) (hp : m.pendingClock = none) : m.Clean :=
  ⟨hp, h.status, h.metadata⟩

theorem Settled.tidy (h : m.Settled nextClock) : m.Tidy nextClock :=
  ⟨h.clean.2.1, h.clean.2.2, h.dict, h.nonneg, h.below⟩

theorem Tidy.mono {a b : Int} (h : m.Tidy a) (hab : a ≤ b) : m.Tidy b :=
  ⟨h.status, h.metadata, h.dict, h.nonneg, lt_of_lt_of_le h.below hab⟩

theorem Tidy.pend (h : m.Tidy nextClock) (pc : Option Int) :
    (m.pend pc none none).Tidy nextClock := ⟨rfl, rfl, h.dict, h.nonneg, h.below⟩

theorem Tidy.applied (h : m.Tidy nextClock) (hp : m.pendingClock = none) :
    let m' := m.applied source clock nextClock status metadata now
    m'.Tidy (max nextClock (m'.clock + 1)) := by
  intro m'
  obtain ⟨-, hs, hm⟩ : m'.Clean := applied_clean (h.clean hp)
  exact ⟨hs, hm, applied_dictOk h.dict, le_trans h.nonneg (le_applied_clock h.below), by omega⟩

theorem stage_rejected (h : m.Clean) {s : Status} (hs : s.settable = false) :
    m.stage clock nextClock (some s) metadata =
      .error ⟨.value, m.pend (if clock > m.clock then some clock else none) none none⟩ := by
  have hst : (m.pend (if clock > m.clock then some clock else none) none none).setStatus s =
      .error ⟨.value, m.pend (if clock > m.clock then some clock else none) none none⟩ := by
    have hstatus : (m.pend (if clock > m.clock then some clock else none) none none).status =
        m.status := rfl
    simp only [setStatus, hstatus, Status.transition_error hs]
    rfl
  have hclock : m.setClock clock nextClock =
      .ok (m.pend (if clock > m.clock then some clock else none) none none) := by
    rw [← @setClock_pend m clock nextClock none none, h.pend_eq]
  simp only [stage, hclock, Py.andThen_ok, hst]
  rfl

theorem stage_pending (h : m.pendingClock ≠ none) :
    m.stage clock nextClock status metadata = .error ⟨.assertion, m⟩ := by
  have hclock : m.setClock clock nextClock = .error ⟨.assertion, m⟩ :=
    if_pos (Option.isSome_iff_ne_none.mpr h)
  simp only [stage, hclock]
  rfl

end Member

namespace Members

/-- What a call returns or raises, when the members it is passed are in the table. -/
def outcome (M : Members) (l : Op × Env) : Option (Py Members) :=
  match l.1 with
  | .get name validity => some (.ok (M.get name validity l.2).1)
  | .update name newStatus newMetadata =>
    (M.members name).map fun member => M.update member newStatus newMetadata l.2
  | .apply name source clock status metadata =>
    (M.members name).bind fun member => (M.members source).map fun source =>
      M.apply member source clock status metadata l.2
  | .ackGossip name source clock =>
    (M.members name).bind fun member => (M.members source).map fun source =>
      M.ackGossip member source clock

theorem step_eq (M : Members) (l : Op × Env) : M.step l = (M.outcome l).map Py.after := by
  obtain ⟨op, env⟩ := l
  cases op with
  | get => rfl
  | update => simp only [step, outcome, Option.map_map, Function.comp_def]
  | apply => simp only [step, outcome, Option.map_bind, Function.comp_def, Option.map_map]
  | ackGossip => simp only [step, outcome, Option.map_bind, Function.comp_def, Option.map_map]

def Tidy (M : Members) : Prop := ∀ n m, M.members n = some m → m.Tidy M.nextClock

section Tidy

variable {M M' : Members} {n : Name} {m m' : Member} {source : Option Member} {clock : Int}
  {status : Option Status} {metadata : Option Metadata} {validity : Option Bytes} {env : Env}

/-- **A call of `_update`.** It raises when a clock is pending, raises for an aggregate status and
leaves the clock pending, or saves. -/
theorem _update_eq (h : m.Tidy M.nextClock) :
    M._update m source clock status metadata env =
      if m.pendingClock ≠ none then .error ⟨.assertion, M.put m⟩
      else if ∀ s ∈ status, s.settable = true then
        .ok (M.commit (m.accepts source clock && m.changes status metadata)
          (m.applied source clock M.nextClock status metadata env.now))
      else .error ⟨.value, M.put (m.pend (if clock > m.clock then some clock else none) none none)⟩
    := by
  split
  · rename_i hp
    simp only [_update, Member.stage_pending hp]
  · rename_i hp
    have hclean := h.clean (not_not.mp hp)
    split
    · rename_i hs
      exact _update_ok hclean hs
    · rename_i hs
      obtain ⟨s, rfl, hno⟩ : ∃ s, status = some s ∧ s.settable = false := by
        cases status with
        | none => exact absurd (by rintro s ⟨⟩) hs
        | some s => exact ⟨s, rfl, by simpa using hs⟩
      simp only [_update, Member.stage_rejected hclean hno]

theorem _update_returns (h : m.Tidy M.nextClock) :
    M._update m source clock status metadata env = .ok M' ↔
      m.pendingClock = none ∧ (∀ s ∈ status, s.settable = true) ∧
        M' = M.commit (m.accepts source clock && m.changes status metadata)
          (m.applied source clock M.nextClock status metadata env.now) := by
  rw [_update_eq h]
  split
  · rename_i hp
    exact iff_of_false (by rintro ⟨⟩) fun hno => hp hno.1
  · rename_i hp
    split
    · rename_i hs
      rw [Except.ok.injEq]
      exact ⟨fun heq => ⟨not_not.mp hp, hs, heq.symm⟩, fun hall => hall.2.2.symm⟩
    · rename_i hs
      exact iff_of_false (by rintro ⟨⟩) fun hno => hs hno.2.1

theorem Tidy.write (h : M.Tidy) (hmem : M'.members = Function.update M.members n (some m'))
    (hle : M.nextClock ≤ M'.nextClock) (hm' : m'.Tidy M'.nextClock) : M'.Tidy := by
  intro k x hx
  rw [hmem] at hx
  by_cases hk : k = n
  · subst hk
    rw [Function.update_self] at hx
    cases hx
    exact hm'
  · rw [Function.update_of_ne hk] at hx
    exact (h k x hx).mono hle

theorem Tidy._update (h : M.Tidy) (hm : M.members m.name = some m) :
    (M._update m source clock status metadata env).after.Tidy := by
  have hset := h _ _ hm
  rw [_update_eq hset]
  split
  · exact h.write rfl le_rfl hset
  · rename_i hp
    split
    · have happlied := @Member.Tidy.applied m source clock M.nextClock status metadata env.now hset
        (not_not.mp hp)
      refine @Tidy.write M _ m.name (m.applied source clock M.nextClock status metadata env.now)
        h ?_ ?_ ?_
      · rw [Py.after_ok, commit_members, Member.applied_name]
      · rw [Py.after_ok, commit_nextClock]; exact le_max_left _ _
      · rw [Py.after_ok, commit_nextClock]; exact happlied
    · exact h.write rfl le_rfl (hset.pend _)

theorem Tidy.get (h : M.Tidy) (hk : M.Keyed) (hpos : 0 < M.nextClock) :
    (M.get n validity env).1.Tidy := by
  refine h.write hk.get_members (le_of_eq get_nextClock.symm) ?_
  rw [get_nextClock]
  obtain ⟨v, known, hgot⟩ := got_eq_found M n validity env
  rw [hgot]
  cases hc : M.members n with
  | some m =>
    rw [found_of_some hc]
    obtain ⟨hs, hm, hd, hn, hb⟩ := h n m hc
    exact ⟨hs, hm, hd, hn, hb⟩
  | none =>
    rw [found_of_none hc]
    exact ⟨rfl, rfl, Or.inl rfl, le_rfl, hpos⟩

theorem Tidy.ackGossip {member source : Member} (h : M.Tidy)
    (hs : M.members source.name = some source) :
    (M.ackGossip member source clock).after.Tidy := by
  by_cases hc : clock ≤ M.nextClock
  · rw [ackGossip_ok hc]
    obtain ⟨h1, h2, h3, h4, h5⟩ := h _ _ hs
    exact h.write (put_acked_members _) le_rfl ⟨h1, h2, h3, h4, h5⟩
  · rw [ackGossip_error hc]; exact h

theorem Tidy.nextClock_pos (h : M.Tidy) (hk : M.Keyed) : 0 < M.nextClock :=
  lt_of_le_of_lt (h _ _ hk.localMember).nonneg (h _ _ hk.localMember).below

end Tidy

/-! ## The status shuffles -/

/-- The set view of each shuffle is the non-local members whose status overlaps. -/
def Shelved (M : Members) : Prop :=
  ∀ status n, n ∈ (M.statuses status).iter ↔
    ∃ m, M.members n = some m ∧ m.isLocal = false ∧ m.status.overlaps status = true

section Shelved

variable {M M' : Members} {n : Name} {m m' : Member} {validity : Option Bytes} {env : Env}

theorem Shelved.write (h : M.Shelved) (hm : M.members n = some m)
    (hmem : M'.members = Function.update M.members n (some m')) (hlocal : m'.isLocal = m.isLocal)
    (hstatus : m'.status = m.status) (hst : M'.statuses = M.statuses) : M'.Shelved := by
  intro status k
  rw [hst, h status k, hmem]
  by_cases hk : k = n
  · subst hk; simp [hm, hlocal, hstatus]
  · rw [Function.update_of_ne hk]

theorem Shelved.get (h : M.Shelved) (hk : M.Keyed) : (M.get n validity env).1.Shelved := by
  intro status k
  rw [get_statuses, hk.get_members]
  obtain ⟨v, known, hgot⟩ := got_eq_found M n validity env
  cases hc : M.members n with
  | some m =>
    rw [found_of_some hc] at hgot
    rw [Option.isSome_some, if_pos rfl, h status k]
    by_cases hkn : k = n
    · subst hkn; simp [hc, hgot]
    · rw [Function.update_of_ne hkn]
  | none =>
    rw [found_of_none hc] at hgot
    rw [Option.isSome_none, if_neg Bool.false_ne_true]
    by_cases hkn : k = n
    · subst hkn
      have hno : k ∉ (M.statuses status).iter := by
        rw [h status k, hc]
        rintro ⟨m, hm, -⟩
        cases hm
      rw [Function.update_self, hgot]
      dsimp only
      split
      · rename_i ho
        exact iff_of_true (by simp) ⟨_, rfl, rfl, ho⟩
      · rename_i ho
        refine iff_of_false hno ?_
        rintro ⟨m, hm, -, hover⟩
        cases hm
        exact ho hover
    · rw [Function.update_of_ne hkn, ← h status k]
      split
      · simp [hkn]
      · rfl

theorem Shelved.commit (h : M.Shelved) (hm : M.members m.name = some m)
    (hname : m'.name = m.name) (hlocal : m'.isLocal = m.isLocal) : (M.commit true m').Shelved := by
  intro status k
  rw [commit_statuses, commit_members, hname]
  cases hl : m.isLocal with
  | true =>
    rw [if_neg (by simp [hlocal, hl]), h status k]
    by_cases hkn : k = m.name
    · subst hkn; simp [hm, hl, hlocal]
    · rw [Function.update_of_ne hkn]
  | false =>
    rw [if_pos ⟨rfl, by rw [hlocal, hl]⟩]
    by_cases hkn : k = m.name
    · subst hkn
      rw [Function.update_self]
      split
      · rename_i ho
        exact iff_of_true (by simp) ⟨m', rfl, hlocal.trans hl, ho⟩
      · rename_i ho
        refine iff_of_false (by simp) ?_
        rintro ⟨x, hx, -, hover⟩
        cases hx
        exact ho hover
    · rw [Function.update_of_ne hkn, ← h status k]
      split
      · simp [hkn]
      · simp [hkn]

theorem Shelved._update {source : Option Member} {clock : Int} {status : Option Status}
    {metadata : Option Metadata} (h : M.Shelved) (hm : M.members m.name = some m) :
    (M._update m source clock status metadata env).after.Shelved := by
  obtain ⟨m', ⟨hname, hlocal, -, -⟩, ⟨hst, hM⟩ | ⟨hst, hM⟩ | hM⟩ :=
    _update_after M m source clock status metadata env
  · rw [hM]
    refine @Shelved.write M (M.put m') m.name m m' h hm ?_ hlocal hst rfl
    rw [← hname]; rfl
  · rw [hM]
    refine @Shelved.write M (M.commit false m') m.name m m' h hm ?_ hlocal hst ?_
    · rw [commit_members, hname]
    · rw [commit_statuses, if_neg (by simp)]
  · rw [hM]; exact h.commit hm hname hlocal

theorem Shelved.ackGossip {member source : Member} {clock : Int} (h : M.Shelved)
    (hs : M.members source.name = some source) :
    (M.ackGossip member source clock).after.Shelved := by
  by_cases hc : clock ≤ M.nextClock
  · rw [ackGossip_ok hc]
    exact h.write hs (put_acked_members _) rfl rfl rfl
  · rw [ackGossip_error hc]; exact h

end Shelved

/-! ## Every reachable table -/

def Initial (M : Members) : Prop := ∃ config env, init config env = .ok M

theorem shelved_alone (config : Config) (env : Env) : (alone config env).Shelved := by
  intro status n
  refine iff_of_false (by simp [alone, WeakShuffle.iter, WeakShuffle.empty]) ?_
  rintro ⟨m, hm, hl, -⟩
  rw [alone_members] at hm
  by_cases hn : n = config.localName
  · subst hn
    rw [Function.update_self] at hm
    cases hm; cases hl
  · rw [Function.update_of_ne hn] at hm; cases hm

theorem shelved_load (config : Config) (env : Env) : (load config env).Shelved := by
  have hpeers : ∀ (peers : List Name) (M : Members), M.Keyed → M.Shelved →
      (peers.foldl (fun M peer => (M.get peer none env).1) M).Shelved := by
    intro peers
    induction peers with
    | nil => exact fun M _ h => h
    | cons peer peers ih => exact fun M hk h => ih _ hk.get (h.get hk)
  exact hpeers _ _ (@fresh_alone config env).toKeyed (shelved_alone config env)

theorem shelved_initial {M : Members} (h : Initial M) : M.Keyed ∧ M.Shelved := by
  obtain ⟨config, env, hM⟩ := h
  have hf := @fresh_load config env
  have hlocal : (load config env).members (load config env).localMember.name =
      some (load config env).localMember := by
    rw [hf.localMember_name]; exact hf.localMember
  have hafter : M = (init config env).after := by rw [hM]; rfl
  subst hafter
  exact ⟨hf.toKeyed._update hlocal, (shelved_load config env)._update hlocal⟩

theorem Initial.wf {M : Members} (h : Initial M) : M.Wf := by
  obtain ⟨config, env, hM⟩ := h
  obtain ⟨M', hM', hwf, -⟩ := init_ok config env
  cases hM.symm.trans hM'
  exact hwf

theorem tidy_initial {M : Members} (h : Initial M) : M.Tidy :=
  fun n m hm => (h.wf.settled n m hm).tidy

structure Ordered (M : Members) : Prop where
  keyed : M.Keyed
  shelved : M.Shelved
  tidy : M.Tidy

theorem Initial.ordered {M : Members} (h : Initial M) : M.Ordered :=
  ⟨(shelved_initial h).1, (shelved_initial h).2, tidy_initial h⟩

section Ordered

variable {M M' : Members} {m member source : Member} {clock : Int} {env : Env}

theorem Ordered.get (h : M.Ordered) (n : Name) (validity : Option Bytes) (env : Env) :
    (M.get n validity env).1.Ordered :=
  ⟨h.keyed.get, h.shelved.get h.keyed, h.tidy.get h.keyed (h.tidy.nextClock_pos h.keyed)⟩

theorem Ordered._update (h : M.Ordered) (hm : M.members m.name = some m) (source : Option Member)
    (clock : Int) (status : Option Status) (metadata : Option Metadata) (env : Env) :
    (M._update m source clock status metadata env).after.Ordered :=
  ⟨h.keyed._update hm, h.shelved._update hm, h.tidy._update hm⟩

theorem Ordered.ackGossip (h : M.Ordered) (hs : M.members source.name = some source) :
    (M.ackGossip member source clock).after.Ordered :=
  ⟨h.keyed.ackGossip hs, h.shelved.ackGossip hs, h.tidy.ackGossip hs⟩

theorem Ordered.self (h : M.Ordered) {n : Name} (hm : M.members n = some m) :
    M.members m.name = some m := by
  rw [h.keyed.name n m hm]; exact hm

/-- **A call** is one of `get`, of `_update` or of `ack_gossip`, with members of the table. -/
theorem step_inv {l : Op × Env} (h : M.Keyed) (hs : M.step l = some M') :
    (∃ name validity, M' = (M.get name validity l.2).1) ∨
      (∃ m source clock status metadata, M.members m.name = some m ∧
        M' = (M._update m source clock status metadata l.2).after) ∨
      ∃ member source clock, M.members source.name = some source ∧
        M' = (M.ackGossip member source clock).after := by
  have hself : ∀ {n m}, M.members n = some m → M.members m.name = some m := by
    intro n m hm
    rw [h.name n m hm]; exact hm
  obtain ⟨op, env⟩ := l
  cases op with
  | get name validity =>
    cases hs
    exact Or.inl ⟨name, validity, rfl⟩
  | update name newStatus newMetadata =>
    obtain ⟨m, hm, rfl⟩ := Option.map_eq_some_iff.mp hs
    exact Or.inr (Or.inl ⟨m, _, _, _, _, hself hm, rfl⟩)
  | apply name source clock status metadata =>
    obtain ⟨m, hm, hs⟩ := Option.bind_eq_some_iff.mp hs
    obtain ⟨src, -, rfl⟩ := Option.map_eq_some_iff.mp hs
    exact Or.inr (Or.inl ⟨m, _, _, _, _, hself hm, rfl⟩)
  | ackGossip name source clock =>
    obtain ⟨m, -, hs⟩ := Option.bind_eq_some_iff.mp hs
    obtain ⟨src, hsrc, rfl⟩ := Option.map_eq_some_iff.mp hs
    exact Or.inr (Or.inr ⟨m, src, clock, hself hsrc, rfl⟩)

theorem Ordered.step {l : Op × Env} (h : M.Ordered) (hs : M.step l = some M') : M'.Ordered := by
  obtain ⟨name, validity, rfl⟩ | ⟨m, source, clock, status, metadata, hm, rfl⟩ |
    ⟨member, source, clock, hsource, rfl⟩ := step_inv h.keyed hs
  · exact h.get name validity l.2
  · exact h._update hm source clock status metadata l.2
  · exact h.ackGossip hsource

end Ordered

def Reachable (M : Members) : Prop := Reach step Initial (fun _ _ => True) M

theorem Reachable.ordered {M : Members} (h : M.Reachable) : M.Ordered :=
  Reach.invariant (P := Ordered) h (fun _ => Initial.ordered) fun _ _ _ _ ih _ hs => ih.step hs

theorem reachable_init (config : Config) (env : Env) : (init config env).after.Reachable := by
  obtain ⟨M, hM, -⟩ := init_ok config env
  rw [hM, Py.after_ok]
  exact .init ⟨config, env, hM⟩

end Members

end Swim
