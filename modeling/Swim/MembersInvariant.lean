import Swim.MembersEffect

/-!
# Swim.MembersInvariant

The invariant of the member table, kept by every method.

* `Keyed` — the views `members`, `nonLocal` and `localName` agree.
* `Wf` — moreover every entry is `Settled`: nothing is pending, the status is real, the metadata
  fields agree and the clock is below `nextClock`. `Wf` is what holds between two calls.
* `Grows` — tables only gain entries, metadata once known stay known, and clocks only go up.
-/

namespace Swim

structure Member.Settled (m : Member) (nextClock : Int) : Prop where
  clean : m.Clean
  real : m.status.real
  dict : m.DictOk
  nonneg : 0 ≤ m.clock
  below : m.clock < nextClock

theorem Member.Settled.mono {m : Member} {a b : Int} (h : m.Settled a) (hab : a ≤ b) :
    m.Settled b :=
  ⟨h.clean, h.real, h.dict, h.nonneg, lt_of_lt_of_le h.below hab⟩

theorem Member.settled_new {name : Name} {isLocal : Bool} {env : Env} {nextClock : Int}
    (h : 0 < nextClock) : (Member.new name isLocal env).Settled nextClock :=
  ⟨⟨rfl, rfl, rfl⟩, rfl, Or.inl rfl, le_rfl, h⟩

namespace Members

structure Keyed (M : Members) : Prop where
  name : ∀ n m, M.members n = some m → m.name = n
  isLocal : ∀ n m, M.members n = some m → (m.isLocal = true ↔ n = M.localName)
  hasLocal : (M.members M.localName).isSome
  nonLocal : ∀ n, n ∈ M.nonLocal ↔ n ≠ M.localName ∧ (M.members n).isSome
  nodup : M.nonLocal.Nodup

structure Wf (M : Members) : Prop extends Keyed M where
  settled : ∀ n m, M.members n = some m → m.Settled M.nextClock

/-- No name is forgotten, metadata stay known and no clock goes back. -/
structure Grows (M M' : Members) : Prop where
  localName : M'.localName = M.localName
  nextClock : M.nextClock ≤ M'.nextClock
  entry : ∀ n m, M.members n = some m → ∃ m', M'.members n = some m' ∧ m.clock ≤ m'.clock ∧
    (m.metadataDict.isSome = true → m'.metadataDict.isSome = true)

theorem Grows.refl (M : Members) : M.Grows M := ⟨rfl, le_rfl, fun _ m h => ⟨m, h, le_rfl, id⟩⟩

theorem Grows.trans {M M' M'' : Members} (h : M.Grows M') (h' : M'.Grows M'') : M.Grows M'' where
  localName := h'.localName.trans h.localName
  nextClock := le_trans h.nextClock h'.nextClock
  entry := by
    intro n m hm
    obtain ⟨m', hm', hle, hd⟩ := h.entry n m hm
    obtain ⟨m'', hm'', hle', hd'⟩ := h'.entry n m' hm'
    exact ⟨m'', hm'', le_trans hle hle', fun hs => hd' (hd hs)⟩

section Write

variable {M M' : Members} {n : Name} {m m0 : Member}

theorem Keyed.write (h : M.Keyed) (h0 : M.members n = some m0) (hname : m.name = m0.name)
    (hlocal : m.isLocal = m0.isLocal) (hmem : M'.members = Function.update M.members n (some m))
    (hln : M'.localName = M.localName) (hnl : M'.nonLocal = M.nonLocal) : M'.Keyed := by
  have hsome : ∀ k, (M'.members k).isSome = (M.members k).isSome := by
    intro k
    rw [hmem]
    by_cases hk : k = n
    · subst hk; rw [Function.update_self, h0]; rfl
    · rw [Function.update_of_ne hk]
  refine ⟨?_, ?_, ?_, ?_, hnl ▸ h.nodup⟩
  · intro k x hx
    rw [hmem] at hx
    by_cases hk : k = n
    · subst hk
      rw [Function.update_self] at hx
      cases hx
      rw [hname]; exact h.name _ _ h0
    · rw [Function.update_of_ne hk] at hx; exact h.name _ _ hx
  · intro k x hx
    rw [hmem] at hx
    rw [hln]
    by_cases hk : k = n
    · subst hk
      rw [Function.update_self] at hx
      cases hx
      rw [hlocal]; exact h.isLocal _ _ h0
    · rw [Function.update_of_ne hk] at hx; exact h.isLocal _ _ hx
  · rw [hln, hsome]; exact h.hasLocal
  · intro k
    rw [hnl, hln, hsome]; exact h.nonLocal k

theorem Keyed.create (h : M.Keyed) (h0 : M.members n = none) (hname : m.name = n)
    (hlocal : m.isLocal = false) (hmem : M'.members = Function.update M.members n (some m))
    (hln : M'.localName = M.localName) (hnl : M'.nonLocal = M.nonLocal ++ [n]) : M'.Keyed := by
  have hne : n ≠ M.localName := by
    rintro rfl
    have := h.hasLocal
    rw [h0] at this; cases this
  have hsome : ∀ k, (M'.members k).isSome = true ↔ k = n ∨ (M.members k).isSome = true := by
    intro k
    rw [hmem]
    by_cases hk : k = n
    · subst hk; simp
    · rw [Function.update_of_ne hk]; simp [hk]
  refine ⟨?_, ?_, ?_, ?_, ?_⟩
  · intro k x hx
    rw [hmem] at hx
    by_cases hk : k = n
    · subst hk; rw [Function.update_self] at hx; cases hx; exact hname
    · rw [Function.update_of_ne hk] at hx; exact h.name _ _ hx
  · intro k x hx
    rw [hmem] at hx
    rw [hln]
    by_cases hk : k = n
    · subst hk
      rw [Function.update_self] at hx
      cases hx
      simp [hlocal, hne]
    · rw [Function.update_of_ne hk] at hx; exact h.isLocal _ _ hx
  · rw [hln]; exact (hsome _).mpr (Or.inr h.hasLocal)
  · intro k
    rw [hnl, hln, hsome, List.mem_append, List.mem_singleton, h.nonLocal]
    constructor
    · rintro (⟨hk, hs⟩ | rfl)
      · exact ⟨hk, Or.inr hs⟩
      · exact ⟨hne, Or.inl rfl⟩
    · rintro ⟨hk, rfl | hs⟩
      · exact Or.inr rfl
      · exact Or.inl ⟨hk, hs⟩
  · rw [hnl, List.nodup_append]
    refine ⟨h.nodup, List.nodup_singleton n, ?_⟩
    intro a ha b hb hab
    rw [List.mem_singleton] at hb
    subst hb; subst hab
    have := ((h.nonLocal a).mp ha).2
    rw [h0] at this; cases this

theorem Keyed.localMember (h : M.Keyed) : M.members M.localName = some M.localMember := by
  obtain ⟨m, hm⟩ := Option.isSome_iff_exists.mp h.hasLocal
  rw [Members.localMember, hm, Option.getD_some]

theorem Keyed.localMember_isLocal (h : M.Keyed) : M.localMember.isLocal = true :=
  (h.isLocal _ _ h.localMember).mpr rfl

theorem Keyed.localMember_name (h : M.Keyed) : M.localMember.name = M.localName :=
  h.name _ _ h.localMember

theorem Keyed.eq_localMember (h : M.Keyed) (hm : M.members n = some m) (hl : m.isLocal = true) :
    m = M.localMember := by
  have hn := (h.isLocal n m hm).mp hl
  subst hn
  exact Option.some.inj (hm.symm.trans h.localMember)

/-- `get_gossip` yields the members the target needs gossip about: the local one, and those whose
metadata are known. -/
theorem Keyed.mem_getGossip (h : M.Keyed) {target : Member} : m ∈ M.getGossip target ↔
    M.members m.name = some m ∧ target.needsGossip m = true ∧
      (m.isLocal = true ∨ m.metadataDict.isSome = true) := by
  rw [Members.getGossip, List.mem_append, List.mem_filter, List.mem_filterMap, Bool.and_eq_true]
  constructor
  · rintro (hm | ⟨⟨k, -, hk⟩, hd, hneed⟩)
    · split at hm
      · rename_i hneed
        rw [List.mem_singleton] at hm
        subst hm
        refine ⟨?_, hneed, Or.inl h.localMember_isLocal⟩
        rw [h.localMember_name]; exact h.localMember
      · cases hm
    · exact ⟨by rw [h.name k m hk]; exact hk, hneed, Or.inr hd⟩
  · rintro ⟨hm, hneed, hor⟩
    cases hl : m.isLocal with
    | true =>
      have heq := h.eq_localMember hm hl
      subst heq
      exact Or.inl (by rw [if_pos hneed]; exact List.mem_singleton_self _)
    | false =>
      have hne : m.name ≠ M.localName := by
        intro hn
        rw [(h.isLocal _ _ hm).mpr hn] at hl; cases hl
      have hd : m.metadataDict.isSome = true := by
        rw [hl] at hor
        exact hor.resolve_left Bool.false_ne_true
      exact Or.inr ⟨⟨m.name, (h.nonLocal _).mpr ⟨hne, by rw [hm]; rfl⟩, hm⟩, hd, hneed⟩

theorem Grows.known (h : M.Grows M') (hk : M.Keyed)
    (hs : M.localMember.metadataDict.isSome = true) :
    M'.localMember.metadataDict.isSome = true := by
  obtain ⟨m', hm', -, hd⟩ := h.entry _ _ hk.localMember
  rw [Members.localMember, h.localName, hm']
  exact hd hs

end Write

/-! ## `get` -/

section Get

variable {M : Members} {n : Name} {validity : Option Bytes} {env : Env}

def found (M : Members) (n : Name) (env : Env) : Member := (M.members n).getD (.new n false env)

theorem got_cases (M : Members) (n : Name) (validity : Option Bytes) (env : Env) :
    M.got n validity env = M.found n env ∨
      ∃ v, validity = some v ∧ (M.found n env).isLocal = false ∧
        M.got n validity env = (M.found n env).reset v := by
  rw [got.eq_def]
  cases validity with
  | none => exact Or.inl rfl
  | some v =>
    dsimp only
    split
    · rename_i hc; exact Or.inr ⟨v, rfl, hc.1, rfl⟩
    · exact Or.inl rfl

theorem got_eq_found (M : Members) (n : Name) (validity : Option Bytes) (env : Env) :
    ∃ v known, M.got n validity env =
      { M.found n env with validity := v, knownClocks := known } := by
  obtain h | ⟨v, -, -, h⟩ := got_cases M n validity env
  · exact ⟨_, _, h⟩
  · exact ⟨_, _, h⟩

theorem found_of_some {m : Member} (h : M.members n = some m) : M.found n env = m := by
  rw [found, h]; rfl

theorem found_of_none (h : M.members n = none) : M.found n env = .new n false env := by
  rw [found, h]; rfl

theorem Keyed.get_members (h : M.Keyed) : (M.get n validity env).1.members =
    Function.update M.members n (some (M.got n validity env)) :=
  Members.get_members (h.name n)

theorem Keyed.got_name (h : M.Keyed) : (M.got n validity env).name = n :=
  Members.got_name (h.name n)

theorem Keyed.get_self (h : M.Keyed) :
    (M.get n validity env).1.members n = some (M.got n validity env) := by
  rw [h.get_members, Function.update_self]

theorem Keyed.get_of_ne (h : M.Keyed) {k : Name} (hk : k ≠ n) :
    (M.get n validity env).1.members k = M.members k := by
  rw [h.get_members, Function.update_of_ne hk]

theorem Keyed.get (h : M.Keyed) : (M.get n validity env).1.Keyed := by
  have hmem := @Keyed.get_members M n validity env h
  obtain ⟨v, known, hgot⟩ := got_eq_found M n validity env
  cases hc : M.members n with
  | some m0 =>
    rw [found_of_some hc] at hgot
    refine h.write hc ?_ ?_ hmem get_localName (by rw [get_nonLocal, hc]; rfl)
    · rw [hgot]
    · rw [hgot]
  | none =>
    rw [found_of_none hc] at hgot
    refine h.create hc h.got_name ?_ hmem get_localName (by rw [get_nonLocal, hc]; rfl)
    rw [hgot]; rfl

theorem Wf.nextClock_pos (h : M.Wf) : 0 < M.nextClock := by
  have hs := h.settled _ _ h.localMember
  exact lt_of_le_of_lt hs.nonneg hs.below

theorem Wf.found_settled (h : M.Wf) : (M.found n env).Settled M.nextClock := by
  cases hc : M.members n with
  | some m => rw [found_of_some hc]; exact h.settled n m hc
  | none => rw [found_of_none hc]; exact Member.settled_new h.nextClock_pos

theorem Wf.got_settled (h : M.Wf) : (M.got n validity env).Settled M.nextClock := by
  obtain ⟨v, known, hgot⟩ := got_eq_found M n validity env
  have hf := @Wf.found_settled M n env h
  rw [hgot]
  exact ⟨hf.clean, hf.real, hf.dict, hf.nonneg, hf.below⟩

theorem Wf.get (h : M.Wf) : (M.get n validity env).1.Wf where
  toKeyed := h.toKeyed.get
  settled := by
    intro k m hm
    rw [get_nextClock]
    by_cases hk : k = n
    · subst hk
      rw [h.get_self] at hm
      cases hm
      exact h.got_settled
    · rw [h.get_of_ne hk] at hm
      exact h.settled k m hm

end Get

/-! ## `_update` -/

section Update

variable {M : Members} {n : Name} {m : Member} {source : Option Member} {clock : Int}
  {status : Option Status} {metadata : Option Metadata} {env : Env}

theorem Keyed.commit (h : M.Keyed) (hm : M.members m.name = some m) (updated : Bool) {m' : Member}
    (hname : m'.name = m.name) (hlocal : m'.isLocal = m.isLocal) :
    (M.commit updated m').Keyed :=
  h.write hm hname hlocal (by rw [commit_members, hname]) commit_localName commit_nonLocal

theorem Keyed._update (h : M.Keyed) (hm : M.members m.name = some m) :
    (M._update m source clock status metadata env).after.Keyed := by
  obtain ⟨m', ⟨hname, hlocal, -, -⟩, ⟨-, hM⟩ | ⟨-, hM⟩ | hM⟩ :=
    _update_after M m source clock status metadata env
  · rw [hM]
    refine h.write (m := m') hm hname hlocal ?_ rfl rfl
    rw [← hname]; rfl
  · rw [hM]; exact h.commit hm _ hname hlocal
  · rw [hM]; exact h.commit hm _ hname hlocal

theorem Wf.applied_settled (h : M.Wf) (hm : M.members m.name = some m)
    (hs : ∀ s ∈ status, s.real) :
    let m' := m.applied source clock M.nextClock status metadata env.now
    m'.Settled (max M.nextClock (m'.clock + 1)) := by
  have hset := h.settled _ _ hm
  intro m'
  refine ⟨Member.applied_clean hset.clean, Member.applied_status_real hset.real hs,
    Member.applied_dictOk hset.dict, ?_, by omega⟩
  exact le_trans hset.nonneg (Member.le_applied_clock hset.below)

theorem Wf._update (h : M.Wf) (hm : M.members m.name = some m) (hs : ∀ s ∈ status, s.real) :
    ∃ M', M._update m source clock status metadata env = .ok M' ∧ M'.Wf ∧ M.Grows M' ∧
      M'.members = Function.update M.members m.name
        (some (m.applied source clock M.nextClock status metadata env.now)) ∧
      M'.nextClock = max M.nextClock
        ((m.applied source clock M.nextClock status metadata env.now).clock + 1) := by
  have hset := h.settled _ _ hm
  have hmem : (M.commit (m.accepts source clock && m.changes status metadata)
      (m.applied source clock M.nextClock status metadata env.now)).members =
      Function.update M.members m.name
        (some (m.applied source clock M.nextClock status metadata env.now)) := by
    rw [commit_members, Member.applied_name]
  refine ⟨_, _update_ok hset.clean fun s h => Status.settable_of_real (hs s h), ⟨?_, ?_⟩,
    ⟨?_, ?_, ?_⟩, hmem, commit_nextClock⟩
  · exact h.toKeyed.commit hm _ Member.applied_name Member.applied_isLocal
  · intro k x hx
    rw [hmem] at hx
    rw [commit_nextClock]
    by_cases hk : k = m.name
    · subst hk
      rw [Function.update_self] at hx
      cases hx
      exact h.applied_settled hm hs
    · rw [Function.update_of_ne hk] at hx
      exact (h.settled k x hx).mono (le_max_left _ _)
  · exact commit_localName
  · rw [commit_nextClock]; exact le_max_left _ _
  · intro k x hx
    rw [hmem]
    by_cases hk : k = m.name
    · subst hk
      cases hm.symm.trans hx
      exact ⟨_, Function.update_self _ _ _, Member.le_applied_clock hset.below,
        Member.applied_known⟩
    · exact ⟨x, by rw [Function.update_of_ne hk]; exact hx, le_rfl, id⟩

end Update

/-! ## `ack_gossip` -/

section Ack

variable {M : Members} {member source : Member} {clock : Int}

/-- The record `ack_gossip` leaves of the member it came from. -/
def acked (source : Member) (name : Name) (clock : Int) : Member :=
  { source with knownClocks := Function.update source.knownClocks name (some clock) }

theorem ackGossip_ok (h : clock ≤ M.nextClock) :
    M.ackGossip member source clock = .ok (M.put (acked source member.name clock)) := if_pos h

theorem ackGossip_error (h : ¬ clock ≤ M.nextClock) :
    M.ackGossip member source clock = .error ⟨.assertion, M⟩ := if_neg h

theorem put_acked_members (n : Name) : (M.put (acked source n clock)).members =
    Function.update M.members source.name (some (acked source n clock)) := rfl

theorem Keyed.put_acked (h : M.Keyed) (hs : M.members source.name = some source) (n : Name) :
    (M.put (acked source n clock)).Keyed :=
  h.write (m := acked source n clock) hs rfl rfl (put_acked_members n) rfl rfl

theorem Keyed.ackGossip (h : M.Keyed) (hs : M.members source.name = some source) :
    (M.ackGossip member source clock).after.Keyed := by
  by_cases hc : clock ≤ M.nextClock
  · rw [ackGossip_ok hc]; exact h.put_acked hs _
  · rw [ackGossip_error hc]; exact h

theorem Wf.put_acked (h : M.Wf) (hs : M.members source.name = some source) (n : Name) :
    (M.put (acked source n clock)).Wf where
  toKeyed := h.toKeyed.put_acked hs n
  settled := by
    intro k x hx
    rw [put_acked_members] at hx
    by_cases hk : k = source.name
    · subst hk
      rw [Function.update_self] at hx
      cases hx
      have hset := h.settled _ _ hs
      exact ⟨hset.clean, hset.real, hset.dict, hset.nonneg, hset.below⟩
    · rw [Function.update_of_ne hk] at hx
      exact h.settled k x hx

theorem grows_put_acked (hs : M.members source.name = some source) (n : Name) :
    M.Grows (M.put (acked source n clock)) where
  localName := rfl
  nextClock := le_rfl
  entry := by
    intro k x hx
    rw [put_acked_members]
    by_cases hk : k = source.name
    · subst hk
      cases hs.symm.trans hx
      exact ⟨_, Function.update_self _ _ _, le_rfl, id⟩
    · exact ⟨x, by rw [Function.update_of_ne hk]; exact hx, le_rfl, id⟩

end Ack

/-! ## `__init__` -/

section Init

variable {config : Config} {env : Env}

def alone (config : Config) (env : Env) : Members where
  listener := []
  nextClock := 1
  localName := config.localName
  nonLocal := []
  members := Function.update (fun _ => none) config.localName
    (some (.new config.localName true env))
  statuses := fun _ => .empty

structure Fresh (config : Config) (env : Env) (M : Members) : Prop extends Wf M where
  localName : M.localName = config.localName
  nextClock : M.nextClock = 1
  listener : M.listener = []
  entry : ∀ n m, M.members n = some m → m = .new n (decide (n = config.localName)) env

theorem alone_members : (alone config env).members =
    Function.update (fun _ => none) config.localName (some (.new config.localName true env)) := rfl

theorem fresh_alone : Fresh config env (alone config env) := by
  have hent : ∀ n m, (alone config env).members n = some m →
      n = config.localName ∧ m = .new config.localName true env := by
    intro n m h
    rw [alone_members] at h
    by_cases hn : n = config.localName
    · subst hn
      rw [Function.update_self] at h
      cases h
      exact ⟨rfl, rfl⟩
    · rw [Function.update_of_ne hn] at h; cases h
  have hkeyed : (alone config env).Keyed := by
    refine ⟨?_, ?_, ?_, ?_, List.nodup_nil⟩
    · intro n m h
      obtain ⟨rfl, rfl⟩ := hent n m h; rfl
    · intro n m h
      obtain ⟨rfl, rfl⟩ := hent n m h; exact ⟨fun _ => rfl, fun _ => rfl⟩
    · simp [alone]
    · intro n
      refine ⟨fun h => absurd h List.not_mem_nil, ?_⟩
      rintro ⟨hn, hs⟩
      obtain ⟨m, hm⟩ := Option.isSome_iff_exists.mp hs
      exact absurd (hent n m hm).1 hn
  refine ⟨⟨hkeyed, ?_⟩, rfl, rfl, rfl, ?_⟩
  · intro n m h
    obtain ⟨rfl, rfl⟩ := hent n m h
    exact Member.settled_new Int.one_pos
  · intro n m h
    obtain ⟨rfl, rfl⟩ := hent n m h
    simp

theorem Fresh.get {M : Members} (h : Fresh config env M) (peer : Name) :
    Fresh config env (M.get peer none env).1 where
  toWf := h.toWf.get
  localName := get_localName.trans h.localName
  nextClock := get_nextClock.trans h.nextClock
  listener := get_listener.trans h.listener
  entry := by
    intro n m hm
    by_cases hn : n = peer
    · subst hn
      rw [h.get_self] at hm
      cases hm
      show M.found n env = _
      cases hc : M.members n with
      | some m0 => rw [found_of_some hc]; exact h.entry n m0 hc
      | none =>
        have hne : n ≠ config.localName := by
          rintro rfl
          have := h.hasLocal
          rw [h.localName, hc] at this; cases this
        rw [found_of_none hc, decide_eq_false hne]
    · rw [h.get_of_ne hn] at hm
      exact h.entry n m hm

theorem fresh_peers (peers : List Name) {M : Members} (h : Fresh config env M) :
    let M' := peers.foldl (fun M peer => (M.get peer none env).1) M
    Fresh config env M' ∧
      ∀ n, (M'.members n).isSome = true ↔ n ∈ peers ∨ (M.members n).isSome = true := by
  induction peers generalizing M with
  | nil => exact ⟨h, by simp⟩
  | cons peer peers ih =>
    obtain ⟨hf, hsome⟩ := ih (h.get peer)
    refine ⟨hf, fun n => ?_⟩
    refine (hsome n).trans ?_
    by_cases hn : n = peer
    · subst hn; rw [h.get_self]; simp
    · rw [h.get_of_ne hn]; simp [hn]

theorem fresh_load : Fresh config env (load config env) :=
  (fresh_peers config.peers fresh_alone).1

theorem load_isSome (n : Name) :
    ((load config env).members n).isSome = true ↔ n ∈ config.peers ∨ n = config.localName := by
  refine ((fresh_peers config.peers fresh_alone).2 n).trans (or_congr_right ?_)
  by_cases hn : n = config.localName
  · subst hn; simp [alone]
  · simp [alone, hn]

def localInit (config : Config) (env : Env) : Member :=
  { Member.new config.localName true env with
    clock := 1
    status := .online
    metadata := config.localMetadata
    metadataDict := some config.localMetadata }

theorem applied_localInit : (Member.new config.localName true env).applied none 1 1 (some .online)
    (some config.localMetadata) env.now = localInit config env := rfl

theorem init_ok (config : Config) (env : Env) : ∃ M, init config env = .ok M ∧ M.Wf ∧
    M.localName = config.localName ∧ M.nextClock = 2 ∧
    M.members config.localName = some (localInit config env) ∧
    (∀ n m, n ≠ config.localName → M.members n = some m → m = .new n false env) ∧
    (∀ n, (M.members n).isSome = true ↔ n ∈ config.peers ∨ n = config.localName) := by
  have hf := @fresh_load config env
  have hlocal := hf.localMember
  have hnew : (load config env).localMember = .new config.localName true env := by
    rw [hf.entry _ _ hlocal, hf.localName, decide_eq_true rfl]
  rw [hf.localName, hnew] at hlocal
  obtain ⟨M, hM, hwf, hg, hmem, hnext⟩ := @Wf._update (load config env)
    (.new config.localName true env) none (load config env).nextClock (some .online)
    (some config.localMetadata) env hf.toWf hlocal (by rintro s ⟨⟩; rfl)
  rw [hf.nextClock] at hM hmem hnext
  have hln : M.localName = config.localName := hg.localName.trans hf.localName
  refine ⟨M, ?_, hwf, hln, hnext, ?_, ?_, ?_⟩
  · rw [init, update, hnew, hf.nextClock]; exact hM
  · rw [hmem, applied_localInit]; exact Function.update_self _ _ _
  · intro n m hn hm
    rw [hmem, Function.update_of_ne (show n ≠ (Member.new config.localName true env).name from hn)]
      at hm
    rw [hf.entry n m hm, decide_eq_false hn]
  · intro n
    rw [← @load_isSome config env, hmem]
    by_cases hn : n = config.localName
    · subst hn
      rw [hlocal]
      simp [Function.update, Member.new]
    · rw [Function.update_of_ne (show n ≠ (Member.new config.localName true env).name from hn)]

end Init

end Members

end Swim
