import Swim.Members

/-!
# Swim.MembersEffect

What the methods of `Members` do to the table, one lemma for each field.

* `get` writes one entry, `got`, the member it returns.
* `_update` writes one entry, `applied`, and never raises for a member with nothing pending and a
  settable status (`_update_ok`).
* `applied_clock`, `applied_status_some`, `applied_metadataDict` — what that leaves in each field.
-/

namespace Swim

namespace Member

/-- What `_update` leaves of a member with nothing pending. -/
def applied (m : Member) (source : Option Member) (clock nextClock : Int) (status : Option Status)
    (metadata : Option Metadata) (now : Time) : Member :=
  if m.accepts source clock && m.changes status metadata
  then m.updated source clock nextClock status metadata now else m

section Applied

variable {m : Member} {source : Option Member} {clock nextClock : Int} {status : Option Status}
  {metadata : Option Metadata} {now : Time}

@[simp] theorem applied_name :
    (m.applied source clock nextClock status metadata now).name = m.name := by
  unfold applied; split <;> simp

@[simp] theorem applied_isLocal :
    (m.applied source clock nextClock status metadata now).isLocal = m.isLocal := by
  unfold applied; split <;> simp

@[simp] theorem applied_validity :
    (m.applied source clock nextClock status metadata now).validity = m.validity := by
  unfold applied; split <;> simp

@[simp] theorem applied_knownClocks :
    (m.applied source clock nextClock status metadata now).knownClocks = m.knownClocks := by
  unfold applied; split <;> simp

theorem applied_clean (h : m.Clean) :
    (m.applied source clock nextClock status metadata now).Clean := by
  unfold applied
  split
  · exact updated_clean h
  · exact h

/-- The clock never goes back, as long as it is below the next one. -/
theorem le_applied_clock (h : m.clock < nextClock) :
    m.clock ≤ (m.applied source clock nextClock status metadata now).clock := by
  unfold applied
  split
  · cases hig : m.isLocal && source.isSome with
    | true => rw [updated_clock_of_ignored hig]; exact le_of_lt h
    | false => rw [updated_clock hig]; exact le_max_right _ _
  · exact le_rfl

theorem statusChange_real (hs : ∀ s ∈ status, s.real) :
    ∀ s ∈ m.statusChange status, s.real := by
  intro s h
  unfold statusChange at h
  split at h
  · rename_i t
    split at h
    · cases h; exact Status.toward_real (hs t rfl)
    · cases h
  · cases h

theorem applied_status_real (h : m.status.real) (hs : ∀ s ∈ status, s.real) :
    (m.applied source clock nextClock status metadata now).status.real := by
  unfold applied updated
  split
  · split
    · exact h
    · cases hc : m.statusChange status with
      | none => exact h
      | some s => exact statusChange_real hs s hc
  · exact h

theorem applied_of_not_accepts (h : m.accepts source clock = false) :
    m.applied source clock nextClock status metadata now = m := by
  rw [applied, h]; rfl

theorem accepts_none (h : m.clock < clock) : m.accepts none clock = true := by
  simp [accepts, h]

theorem toward_eq_getD (s : Status) :
    (m.statusChange (some s)).getD m.status = m.status.toward s := by
  rw [statusChange]
  split
  · rfl
  · rename_i h; exact (not_not.mp h).symm

theorem applied_status_ignored (h : (m.isLocal && source.isSome) = true) :
    (m.applied source clock nextClock status metadata now).status = m.status := by
  rw [applied]
  split
  · rw [updated, if_pos h]
  · rfl

theorem applied_status_none :
    (m.applied source clock nextClock none metadata now).status = m.status := by
  rw [applied]
  split
  · rw [updated]
    split
    · rfl
    · rfl
  · rfl

theorem applied_status_some (h : (m.isLocal && source.isSome) = false)
    (ha : m.accepts source clock = true) (s : Status) :
    (m.applied source clock nextClock (some s) metadata now).status = m.status.toward s := by
  rw [applied, ha, Bool.true_and]
  split
  · rw [updated, if_neg (by simp [h])]; exact toward_eq_getD s
  · rename_i hc
    rw [← toward_eq_getD]
    rw [changes, Bool.or_eq_true, not_or, Bool.not_eq_true, Option.isSome_eq_false_iff,
      Option.isNone_iff_eq_none] at hc
    rw [hc.1]; rfl

theorem accepts_eq_false (h : m.accepts source clock = false) : clock ≤ m.clock := by
  rw [accepts, Bool.or_eq_false_iff, decide_eq_false_iff_not] at h
  exact not_lt.mp h.1

theorem changes_eq_false (h : m.changes status metadata = false) :
    m.metadataChange metadata = none := by
  rw [changes, Bool.or_eq_false_iff] at h
  exact Option.isSome_eq_false_iff.mp h.2 |> Option.isNone_iff_eq_none.mp

/-- `_metadata_dict` is `METADATA_UNKNOWN` or the mapping `_metadata`. -/
def DictOk (m : Member) : Prop := m.metadataDict = none ∨ m.metadataDict = some m.metadata

theorem applied_dictOk (h : m.DictOk) :
    (m.applied source clock nextClock status metadata now).DictOk := by
  unfold applied updated
  split
  · split
    · exact h
    · cases hc : m.metadataChange metadata with
      | none => simpa [DictOk, hc] using h
      | some μ => exact Or.inr (by simp)
  · exact h

theorem applied_clock : (m.applied source clock nextClock status metadata now).clock =
    if m.accepts source clock && m.changes status metadata then
      if m.isLocal && source.isSome then nextClock else max clock m.clock
    else m.clock := by
  unfold applied
  split
  · split
    · rename_i h; exact updated_clock_of_ignored h
    · rename_i h; exact updated_clock (by rw [← Bool.not_eq_true]; exact h)
  · rfl

theorem applied_none_clock (h : m.clock < nextClock)
    (hne : m.applied none nextClock nextClock status metadata now ≠ m) :
    (m.applied none nextClock nextClock status metadata now).clock = nextClock := by
  have hc : (m.accepts none nextClock && m.changes status metadata) = true := by
    by_contra hno
    exact hne (if_neg hno)
  rw [applied_clock, if_pos hc, if_neg (by simp)]
  exact max_eq_left (le_of_lt h)

theorem applied_metadataDict_ignored (h : (m.isLocal && source.isSome) = true) :
    (m.applied source clock nextClock status metadata now).metadataDict = m.metadataDict := by
  rw [applied]
  split
  · rw [updated, if_pos h]
  · rfl

theorem metadataChange_eq_none (h : m.DictOk) (hc : m.metadataChange metadata = none) :
    metadata = none ∨ metadata = m.metadataDict := by
  unfold metadataChange at hc
  split at hc
  · rename_i μ
    split at hc
    · cases hc
    · rename_i hno
      obtain ⟨hd, hμ⟩ := not_or.mp hno
      rw [h.resolve_left hd, not_not.mp hμ]
      exact Or.inr rfl
  · exact Or.inl rfl

theorem metadataChange_eq_some {μ : Metadata} (hc : m.metadataChange metadata = some μ) :
    metadata = some μ := by
  unfold metadataChange at hc
  split at hc
  · split at hc
    · exact hc
    · cases hc
  · cases hc

theorem applied_metadataDict (hd : m.DictOk) (h : (m.isLocal && source.isSome) = false)
    (ha : m.accepts source clock = true) :
    (m.applied source clock nextClock status metadata now).metadataDict =
      metadata.or m.metadataDict := by
  rw [applied, ha, Bool.true_and]
  cases hc : m.metadataChange metadata with
  | some μ =>
    rw [if_pos (by rw [changes, hc]; simp), updated, if_neg (by rw [h]; exact Bool.false_ne_true)]
    show (m.metadataChange metadata).or m.metadataDict = _
    rw [hc, metadataChange_eq_some hc]
  | none =>
    have hkeep : metadata.or m.metadataDict = m.metadataDict := by
      obtain hm | hm := metadataChange_eq_none hd hc
      · rw [hm]; rfl
      · rw [hm]; exact Option.or_self
    rw [hkeep]
    split
    · rw [updated, if_neg (by rw [h]; exact Bool.false_ne_true)]
      simp [hc]
    · rfl

theorem applied_metadataDict_kept (hd : m.DictOk)
    (h : m.accepts source clock = true → m.metadataChange metadata = none) :
    (m.applied source clock nextClock status metadata now).metadataDict = m.metadataDict := by
  cases hacc : m.accepts source clock with
  | false => rw [applied_of_not_accepts hacc]
  | true =>
    cases hig : m.isLocal && source.isSome with
    | true => exact applied_metadataDict_ignored hig
    | false =>
      rw [applied_metadataDict hd hig hacc]
      obtain hm | hm := metadataChange_eq_none hd (h hacc)
      · rw [hm]; rfl
      · rw [hm]; exact Option.or_self

theorem applied_changed (hd : m.DictOk) (h : (m.isLocal && source.isSome) = false)
    (hne : (m.applied source clock nextClock status metadata now).metadataDict ≠ m.metadataDict) :
    (m.applied source clock nextClock status metadata now).metadataDict = metadata ∧
      m.accepts source clock = true ∧
      (m.applied source clock nextClock status metadata now).clock = max clock m.clock := by
  have hc : (m.accepts source clock && m.changes status metadata) = true := by
    by_contra hno
    exact hne (by rw [applied, if_neg hno])
  have hacc := (Bool.and_eq_true_iff.mp hc).1
  rw [applied_metadataDict hd h hacc] at hne ⊢
  refine ⟨?_, hacc, ?_⟩
  · cases metadata with
    | none => exact absurd rfl hne
    | some μ => rfl
  · rw [applied_clock, if_pos hc, if_neg (by rw [h]; exact Bool.false_ne_true)]

theorem applied_known (h : m.metadataDict.isSome = true) :
    (m.applied source clock nextClock status metadata now).metadataDict.isSome = true := by
  unfold applied updated
  split
  · split
    · exact h
    · simp [h]
  · exact h

theorem applied_local (hl : m.isLocal = true) (hb : m.clock < nextClock)
    (hk : m.metadataDict.isSome = true) (hc : source = none → clock = nextClock) :
    m.applied source clock nextClock status metadata now = m ∨
      m.clock < (m.applied source clock nextClock status metadata now).clock ∧
        (m.applied source clock nextClock status metadata now).metadataDict.isSome = true := by
  by_cases hch : (m.accepts source clock && m.changes status metadata) = true
  · refine Or.inr ⟨?_, applied_known hk⟩
    rw [applied_clock, if_pos hch]
    cases source with
    | some s => rw [if_pos (by rw [hl]; rfl)]; exact hb
    | none => rw [if_neg (by simp), hc rfl]; exact lt_max_of_lt_left hb
  · exact Or.inl (if_neg hch)

theorem applied_told {x : Member} (hd : m.DictOk) (hl : m.isLocal = true)
    (hb : m.clock < nextClock) :
    (m.applied (some x) clock nextClock status metadata now).clock = m.clock ∧
        (clock ≤ m.clock ∨ metadata = none ∨ metadata = m.metadataDict) ∨
      m.clock < (m.applied (some x) clock nextClock status metadata now).clock := by
  by_cases hch : (m.accepts (some x) clock && m.changes status metadata) = true
  · rw [applied_clock, if_pos hch, if_pos (by rw [hl]; rfl)]
    exact Or.inr hb
  · rw [applied, if_neg hch]
    rw [Bool.not_eq_true, Bool.and_eq_false_iff] at hch
    exact Or.inl ⟨rfl, hch.imp accepts_eq_false fun hno =>
      metadataChange_eq_none hd (changes_eq_false hno)⟩

end Applied

def reset (m : Member) (validity : Bytes) : Member :=
  { m with knownClocks := fun _ => none, validity }

end Member

namespace Members

variable {M : Members} {m : Member} {n name : Name} {validity : Option Bytes} {env : Env}

/-! ## Status shuffles -/

theorem editStatuses_eq (edit : Status → WeakShuffle Name → WeakShuffle Name) :
    M.editStatuses edit = { M with statuses := fun s => edit s (M.statuses s) } := by
  have hfold : ∀ (l : List Status), l.Nodup → ∀ (M : Members),
      l.foldl (fun M status =>
        { M with statuses := Function.update M.statuses status (edit status (M.statuses status)) })
        M = { M with
          statuses := fun s => if s ∈ l then edit s (M.statuses s) else M.statuses s } := by
    intro l
    induction l with
    | nil => intro _ M; simp
    | cons t l ih =>
      intro hnd M
      obtain ⟨ht, hl⟩ := List.nodup_cons.mp hnd
      rw [List.foldl_cons, ih hl]
      congr 1
      funext s
      by_cases hst : s = t
      · subst hst; simp [ht]
      · simp [hst]
  rw [editStatuses, hfold _ (by decide)]
  congr 1
  funext s
  rw [if_pos (Status.mem_allStatuses s)]

theorem refreshStatuses_eq (h : m.isLocal = false) : M.refreshStatuses m =
    { M with
      statuses := fun s => if m.status.overlaps s then (M.statuses s).add m.name
        else (M.statuses s).discard m.name } := by
  rw [refreshStatuses, if_neg (by simp [h]), editStatuses_eq]

theorem refreshStatuses_local (h : m.isLocal = true) : M.refreshStatuses m = M := if_pos h

theorem create_eq : M.create m =
    { M with
      nonLocal := M.nonLocal ++ [m.name]
      members := Function.update M.members m.name (some m)
      statuses := fun s => if m.status.overlaps s then (M.statuses s).add m.name
        else M.statuses s } := by
  rw [create, editStatuses_eq]; rfl

/-! ## `get` -/

def got (M : Members) (name : Name) (validity : Option Bytes) (env : Env) : Member :=
  let member := (M.members name).getD (.new name false env)
  match validity with
  | some validity =>
    if member.isLocal = false ∧ member.validity ≠ validity then member.reset validity else member
  | none => member

theorem getOrCreate_some (h : M.members name = some m) : M.getOrCreate name env = (M, m) := by
  simp only [getOrCreate, h]

theorem getOrCreate_none (h : M.members name = none) :
    M.getOrCreate name env = (M.create (.new name false env), .new name false env) := by
  simp only [getOrCreate, h]

theorem getOrCreate_snd : (M.getOrCreate name env).2 =
    (M.members name).getD (.new name false env) := by
  cases hc : M.members name with
  | none => rw [getOrCreate_none hc]; rfl
  | some m => rw [getOrCreate_some hc]; rfl

theorem getOrCreate_members : (M.getOrCreate name env).1.members =
    Function.update M.members name (some ((M.members name).getD (.new name false env))) := by
  cases hc : M.members name with
  | none => rw [getOrCreate_none hc, create_eq]; rfl
  | some m => rw [getOrCreate_some hc, Option.getD_some, ← hc, Function.update_eq_self]

theorem get_eq : M.get name validity env =
    (match validity with
      | some validity =>
        if ((M.members name).getD (.new name false env)).isLocal = false ∧
            ((M.members name).getD (.new name false env)).validity ≠ validity then
          ((M.getOrCreate name env).1.put
            (((M.members name).getD (.new name false env)).reset validity),
            ((M.members name).getD (.new name false env)).reset validity)
        else ((M.getOrCreate name env).1, (M.members name).getD (.new name false env))
      | none => ((M.getOrCreate name env).1, (M.members name).getD (.new name false env))) := by
  rw [← getOrCreate_snd]; rfl

theorem get_snd : (M.get name validity env).2 = M.got name validity env := by
  rw [get_eq, got.eq_def]
  cases validity with
  | none => rfl
  | some v => dsimp only; split <;> rfl

theorem get_fst (M : Members) (name : Name) (validity : Option Bytes) (env : Env) :
    ∃ members, (M.get name validity env).1 =
      { (M.getOrCreate name env).1 with members := members } := by
  rw [get_eq]
  cases validity with
  | none => exact ⟨_, rfl⟩
  | some v => dsimp only; split <;> exact ⟨_, rfl⟩

theorem got_name (h : ∀ m, M.members name = some m → m.name = name) :
    (M.got name validity env).name = name := by
  have hm : ((M.members name).getD (.new name false env)).name = name := by
    cases hc : M.members name with
    | none => rfl
    | some m => exact h m hc
  unfold got
  cases validity with
  | none => exact hm
  | some v => dsimp only; split <;> exact hm

theorem get_members (h : ∀ m, M.members name = some m → m.name = name) :
    (M.get name validity env).1.members =
      Function.update M.members name (some (M.got name validity env)) := by
  have hname : ((M.members name).getD (.new name false env)).name = name := by
    simpa [got] using @got_name M name none env h
  rw [get_eq, got.eq_def]
  cases validity with
  | none => exact getOrCreate_members
  | some v =>
    dsimp only
    split
    · simp only [put, getOrCreate_members, Member.reset, hname, Function.update_idem]
    · exact getOrCreate_members

@[simp] theorem get_nextClock : (M.get name validity env).1.nextClock = M.nextClock := by
  obtain ⟨_, h⟩ := get_fst M name validity env
  rw [h]
  cases hc : M.members name with
  | none => rw [getOrCreate_none hc, create_eq]
  | some m => rw [getOrCreate_some hc]

@[simp] theorem get_localName : (M.get name validity env).1.localName = M.localName := by
  obtain ⟨_, h⟩ := get_fst M name validity env
  rw [h]
  cases hc : M.members name with
  | none => rw [getOrCreate_none hc, create_eq]
  | some m => rw [getOrCreate_some hc]

@[simp] theorem get_listener : (M.get name validity env).1.listener = M.listener := by
  obtain ⟨_, h⟩ := get_fst M name validity env
  rw [h]
  cases hc : M.members name with
  | none => rw [getOrCreate_none hc, create_eq]
  | some m => rw [getOrCreate_some hc]

theorem get_nonLocal : (M.get name validity env).1.nonLocal =
    if (M.members name).isSome then M.nonLocal else M.nonLocal ++ [name] := by
  obtain ⟨_, h⟩ := get_fst M name validity env
  rw [h]
  cases hc : M.members name with
  | none => rw [getOrCreate_none hc, create_eq]; rfl
  | some m => rw [getOrCreate_some hc]; rfl

theorem get_statuses : (M.get name validity env).1.statuses =
    if (M.members name).isSome then M.statuses
    else fun s => if Status.offline.overlaps s then (M.statuses s).add name else M.statuses s := by
  obtain ⟨_, h⟩ := get_fst M name validity env
  rw [h]
  cases hc : M.members name with
  | none => rw [getOrCreate_none hc, create_eq]; rfl
  | some m => rw [getOrCreate_some hc]; rfl

/-! ## `_update` -/

section Update

variable {updated : Bool}

theorem put_self (hm : M.members m.name = some m) : M.put m = M := by
  rw [put, ← hm, Function.update_eq_self]

@[simp] theorem commit_members :
    (M.commit updated m).members = Function.update M.members m.name (some m) := by
  cases hl : m.isLocal <;> cases updated <;> simp only [commit, put, notify] <;> split <;>
    simp [refreshStatuses_eq, refreshStatuses_local, hl]

@[simp] theorem commit_localName : (M.commit updated m).localName = M.localName := by
  cases hl : m.isLocal <;> cases updated <;> simp only [commit, put, notify] <;> split <;>
    simp [refreshStatuses_eq, refreshStatuses_local, hl]

@[simp] theorem commit_nonLocal : (M.commit updated m).nonLocal = M.nonLocal := by
  cases hl : m.isLocal <;> cases updated <;> simp only [commit, put, notify] <;> split <;>
    simp [refreshStatuses_eq, refreshStatuses_local, hl]

theorem commit_nextClock : (M.commit updated m).nextClock = max M.nextClock (m.clock + 1) := by
  have hmax : (if m.clock ≥ M.nextClock then m.clock + 1 else M.nextClock) =
      max M.nextClock (m.clock + 1) := by
    split <;> omega
  rw [← hmax]
  cases hl : m.isLocal <;> cases updated <;> simp only [commit, put, notify] <;> split <;>
    simp [refreshStatuses_eq, refreshStatuses_local, hl]

theorem commit_listener : (M.commit updated m).listener =
    if updated then M.listener ++ [m.name] else M.listener := by
  cases hl : m.isLocal <;> cases updated <;> simp only [commit, put, notify] <;> split <;>
    simp [refreshStatuses_eq, refreshStatuses_local, hl]

theorem commit_statuses : (M.commit updated m).statuses =
    if updated = true ∧ m.isLocal = false then
      fun s => if m.status.overlaps s then (M.statuses s).add m.name
        else (M.statuses s).discard m.name
    else M.statuses := by
  cases hl : m.isLocal <;> cases updated <;> simp only [commit, put, notify] <;> split <;>
    simp [refreshStatuses_eq, refreshStatuses_local, hl]

variable {source : Option Member} {clock : Int} {status : Option Status}
  {metadata : Option Metadata}

theorem _update_ok (h : m.Clean) (hs : ∀ s ∈ status, s.settable) :
    M._update m source clock status metadata env =
      .ok (M.commit (m.accepts source clock && m.changes status metadata)
        (m.applied source clock M.nextClock status metadata env.now)) := by
  obtain ⟨staged, hstage, hsave⟩ := @Member.stage_save m source clock M.nextClock status
    metadata env.now h hs
  unfold _update
  simp only [hstage, hsave, Member.applied]
  split
  · rename_i hc; simp only [hc]
  · rename_i hc; simp only [Bool.not_eq_true] at hc; simp only [hc]

end Update

theorem _update_after (M : Members) (m : Member) (source : Option Member) (clock : Int)
    (status : Option Status) (metadata : Option Metadata) (env : Env) :
    ∃ m', m.Kept m' ∧
      (m'.status = m.status ∧
          (M._update m source clock status metadata env).after = M.put m' ∨
        m'.status = m.status ∧
          (M._update m source clock status metadata env).after = M.commit false m' ∨
        (M._update m source clock status metadata env).after = M.commit true m') := by
  obtain ⟨pc, ps, pm, hstage⟩ := m.stage_after clock M.nextClock status metadata
  cases hr : m.stage clock M.nextClock status metadata with
  | error r =>
    rw [hr] at hstage
    have hstate : r.state = m.pend pc ps pm := hstage
    refine ⟨r.state, by rw [hstate]; exact ⟨rfl, rfl, rfl, rfl⟩,
      Or.inl ⟨by rw [hstate]; rfl, ?_⟩⟩
    simp only [_update, hr, Py.after_error]
  | ok staged =>
    rw [hr] at hstage
    have hstaged : staged = m.pend pc ps pm := hstage
    obtain ⟨hkept, hst⟩ := staged.save_keeps source M.nextClock env.now
    rw [hstaged] at hkept
    refine ⟨(staged.save source M.nextClock env.now).2, ?_, ?_⟩
    · rw [hstaged]
      exact ⟨hkept.name, hkept.isLocal, hkept.validity, hkept.knownClocks⟩
    · cases hu : (staged.save source M.nextClock env.now).1 with
      | true => exact Or.inr (Or.inr (by simp only [_update, hr, Py.after_ok, hu]))
      | false =>
        refine Or.inr (Or.inl ⟨?_, by simp only [_update, hr, Py.after_ok, hu]⟩)
        rw [hst hu, hstaged]; rfl

theorem _update_members (M : Members) (m : Member) (source : Option Member) (clock : Int)
    (status : Option Status) (metadata : Option Metadata) (env : Env) :
    ∃ m', m.Kept m' ∧ (M._update m source clock status metadata env).after.members =
      Function.update M.members m.name (some m') := by
  obtain ⟨m', hkept, ⟨-, hM⟩ | ⟨-, hM⟩ | hM⟩ := _update_after M m source clock status metadata env
  · exact ⟨m', hkept, by rw [hM, put, hkept.name]⟩
  · exact ⟨m', hkept, by rw [hM, commit_members, hkept.name]⟩
  · exact ⟨m', hkept, by rw [hM, commit_members, hkept.name]⟩

theorem _update_of_ne {k : Name} (hk : k ≠ m.name) (source : Option Member) (clock : Int)
    (status : Option Status) (metadata : Option Metadata) (env : Env) :
    (M._update m source clock status metadata env).after.members k = M.members k := by
  obtain ⟨m', -, hmem⟩ := _update_members M m source clock status metadata env
  rw [hmem, Function.update_of_ne hk]

theorem le_update_nextClock (M : Members) (m : Member) (source : Option Member) (clock : Int)
    (status : Option Status) (metadata : Option Metadata) (env : Env) :
    M.nextClock ≤ (M._update m source clock status metadata env).after.nextClock := by
  obtain ⟨m', -, ⟨-, hM⟩ | ⟨-, hM⟩ | hM⟩ := _update_after M m source clock status metadata env
  · rw [hM]; exact le_rfl
  · rw [hM, commit_nextClock]; exact le_max_left _ _
  · rw [hM, commit_nextClock]; exact le_max_left _ _

end Members

end Swim
