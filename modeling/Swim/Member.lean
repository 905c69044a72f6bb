import Swim.Packet

/-!
# Swim.Member

`swimprotocol.members.Member`: what a process records about one member, and how it stages and
saves a change.

* `setClock`, `setStatus`, `setMetadata` — stage a change in the pending fields.
* `save` — `_save`, decides about the staged change and clears the pending fields.
* `accepts`, `changes`, `updated` — for a member with nothing pending: whether `_save` looks at
  the staged change at all, whether it changes something, and the member `_save` leaves.
* `stage_save` — staging settable values and saving gives `updated`.
-/

namespace Swim

/-- A member at a previous moment. -/
structure MemberSnapshot where
  name : Name
  clock : Int
  status : Status
  statusTime : Time
  metadata : Option Metadata
  deriving DecidableEq

/-- `metadata` is the frozen set of items `_metadata`; `metadataDict` is `_metadata_dict`, where
`none` is the object `METADATA_UNKNOWN`. -/
structure Member where
  name : Name
  isLocal : Bool
  clock : Int
  validity : Bytes
  knownClocks : Name → Option Int
  status : Status
  statusTime : Time
  metadata : Metadata
  metadataDict : Option Metadata
  previous : MemberSnapshot
  pendingClock : Option Int
  pendingStatus : Option Status
  pendingMetadata : Option Metadata

namespace Member

def new (name : Name) (isLocal : Bool) (env : Env) : Member where
  name := name
  isLocal := isLocal
  clock := 0
  validity := env.randbytes name
  knownClocks := fun _ => none
  status := .offline
  statusTime := env.now
  metadata := ∅
  metadataDict := none
  previous := ⟨name, 0, .offline, env.now, none⟩
  pendingClock := none
  pendingStatus := none
  pendingMetadata := none

instance : Inhabited Member := ⟨new "" false ⟨0, fun _ => []⟩⟩

def source (m : Member) : Source := ⟨m.name, m.validity⟩

def snapshot (m : Member) : MemberSnapshot :=
  ⟨m.name, m.clock, m.status, m.statusTime, m.metadataDict⟩

def needsGossip (m member : Member) : Bool := member.clock > (m.knownClocks member.name).getD (-1)

def setClock (m : Member) (clock : Int) (_nextClock : Int) : Py Member :=
  if m.pendingClock.isSome then .error ⟨.assertion, m⟩
  else if clock > m.clock then .ok { m with pendingClock := some clock }
  else .ok m

def setStatus (m : Member) (status : Status) : Py Member :=
  if m.pendingStatus.isSome then .error ⟨.assertion, m⟩
  else
    match m.status.transition status with
    | .error e => .error ⟨e, m⟩
    | .ok transition =>
      if transition ≠ m.status then .ok { m with pendingStatus := some transition } else .ok m

def setMetadata (m : Member) (metadata : Metadata) : Py Member :=
  if m.pendingMetadata.isSome then .error ⟨.assertion, m⟩
  else if m.metadataDict = none ∨ metadata ≠ m.metadata then
    .ok { m with pendingMetadata := some metadata }
  else .ok m

/-- The calls of `setClock`, `setStatus` and `setMetadata` in `Members._update`. -/
def stage (m : Member) (clock nextClock : Int) (status : Option Status)
    (metadata : Option Metadata) : Py Member :=
  (m.setClock clock nextClock).andThen fun m =>
  (match status with
    | some status => m.setStatus status
    | none => .ok m).andThen fun m =>
  match metadata with
  | some metadata => m.setMetadata metadata
  | none => .ok m

/-- Returns whether something was updated, and the member. -/
def save (m : Member) (source : Option Member) (nextClock : Int) (now : Time) : Bool × Member :=
  let ignoreUpdate := m.isLocal && source.isSome
  let previous := m.snapshot
  let pendingClock := m.pendingClock
  let pendingStatus := m.pendingStatus
  let pendingMetadata := m.pendingMetadata
  let m := { m with pendingClock := none, pendingStatus := none, pendingMetadata := none }
  if pendingClock = none ∧ source.map name ≠ some m.name then (false, m)
  else
    let pendingClock := if ignoreUpdate then some nextClock else pendingClock
    let updated := pendingStatus.isSome || pendingMetadata.isSome
    let m := match pendingStatus with
      | some status => if ignoreUpdate then m else { m with status, statusTime := now }
      | none => m
    let m := match pendingMetadata with
      | some metadata =>
        if ignoreUpdate then m else { m with metadata, metadataDict := some metadata }
      | none => m
    let m := match pendingClock with
      | some clock => if updated then { m with clock } else m
      | none => m
    (updated, if updated then { m with previous } else m)

/-! ## The effect of staging and saving -/

def Clean (m : Member) : Prop :=
  m.pendingClock = none ∧ m.pendingStatus = none ∧ m.pendingMetadata = none

def statusChange (m : Member) (status : Option Status) : Option Status :=
  match status with
  | some status => if m.status.toward status ≠ m.status then some (m.status.toward status) else none
  | none => none

def metadataChange (m : Member) (metadata : Option Metadata) : Option Metadata :=
  match metadata with
  | some metadata => if m.metadataDict = none ∨ metadata ≠ m.metadata then some metadata else none
  | none => none

/-- `_save` considers the change: its clock is newer, or it comes from the member itself. -/
def accepts (m : Member) (source : Option Member) (clock : Int) : Bool :=
  clock > m.clock || source.map name == some m.name

def changes (m : Member) (status : Option Status) (metadata : Option Metadata) : Bool :=
  (m.statusChange status).isSome || (m.metadataChange metadata).isSome

/-- The member a considered change that changes something leaves. The local member keeps its
status and metadata when the change has a source, and takes the next clock. -/
def updated (m : Member) (source : Option Member) (clock nextClock : Int) (status : Option Status)
    (metadata : Option Metadata) (now : Time) : Member :=
  if m.isLocal && source.isSome then { m with clock := nextClock, previous := m.snapshot }
  else
    { m with
      clock := max clock m.clock
      status := (m.statusChange status).getD m.status
      statusTime := if (m.statusChange status).isSome then now else m.statusTime
      metadata := (m.metadataChange metadata).getD m.metadata
      metadataDict := (m.metadataChange metadata).or m.metadataDict
      previous := m.snapshot }

def pend (m : Member) (clock : Option Int) (status : Option Status) (metadata : Option Metadata) :
    Member :=
  { m with pendingClock := clock, pendingStatus := status, pendingMetadata := metadata }

section Stage

variable {m : Member} {source : Option Member} {clock nextClock : Int} {status : Option Status}
  {metadata : Option Metadata} {now : Time}

theorem Clean.pend_eq (h : m.Clean) : m.pend none none none = m := by
  obtain ⟨h1, h2, h3⟩ := h
  cases m; cases h1; cases h2; cases h3; rfl

theorem setClock_pend (ps : Option Status) (pm : Option Metadata) :
    (m.pend none ps pm).setClock clock nextClock =
      .ok (m.pend (if clock > m.clock then some clock else none) ps pm) := by
  show (if clock > m.clock then _ else _) = _
  split <;> rfl

theorem setStatus_pend (pc : Option Int) (pm : Option Metadata) {s : Status} (hs : s.settable) :
    (m.pend pc none pm).setStatus s = .ok (m.pend pc (m.statusChange (some s)) pm) := by
  have hst : (m.pend pc none pm).status = m.status := rfl
  have hp : (m.pend pc none pm).pendingStatus = none := rfl
  simp only [setStatus, hst, hp, Status.transition_settable hs, statusChange]
  by_cases hne : m.status.toward s ≠ m.status
  · simp only [if_pos hne]; rfl
  · simp only [if_neg hne]; rfl

theorem setMetadata_pend (pc : Option Int) (ps : Option Status) (μ : Metadata) :
    (m.pend pc ps none).setMetadata μ = .ok (m.pend pc ps (m.metadataChange (some μ))) := by
  have hp : (m.pend pc ps none).pendingMetadata = none := rfl
  have hm : (m.pend pc ps none).metadata = m.metadata := rfl
  have hd : (m.pend pc ps none).metadataDict = m.metadataDict := rfl
  simp only [setMetadata, hp, hm, hd, metadataChange]
  by_cases hne : m.metadataDict = none ∨ μ ≠ m.metadata
  · simp only [if_pos hne]; rfl
  · simp only [if_neg hne]; rfl

theorem stage_pend (hs : ∀ s ∈ status, s.settable) :
    (m.pend none none none).stage clock nextClock status metadata =
      .ok (m.pend (if clock > m.clock then some clock else none) (m.statusChange status)
        (m.metadataChange metadata)) := by
  rw [stage, setClock_pend, Py.andThen_ok]
  cases status with
  | none =>
    cases metadata with
    | none => rfl
    | some μ => exact setMetadata_pend _ _ μ
  | some s =>
    simp only [setStatus_pend _ _ (hs s rfl), Py.andThen_ok]
    cases metadata with
    | none => rfl
    | some μ => exact setMetadata_pend _ _ μ

/-- `_save` returns early when the change is neither newer nor from the member itself. -/
theorem save_ignored (ps : Option Status) (pm : Option Metadata)
    (hs : source.map name ≠ some m.name) :
    (m.pend none ps pm).save source nextClock now = (false, m.pend none none none) :=
  if_pos ⟨rfl, hs⟩

theorem save_considered (h : m.Clean) {pc : Option Int} {ps : Option Status} {pm : Option Metadata}
    (hsrc : pc ≠ none ∨ source.map name = some m.name) :
    (m.pend pc ps pm).save source nextClock now =
      if ps.isSome || pm.isSome then
        (true,
          if m.isLocal && source.isSome then { m with clock := nextClock, previous := m.snapshot }
          else
            { m with
              clock := pc.getD m.clock
              status := ps.getD m.status
              statusTime := if ps.isSome then now else m.statusTime
              metadata := pm.getD m.metadata
              metadataDict := pm.or m.metadataDict
              previous := m.snapshot })
      else (false, m) := by
  have hnot : ¬ (pc = none ∧ source.map name ≠ some m.name) := by tauto
  refine (if_neg hnot).trans ?_
  clear hnot hsrc
  obtain ⟨h1, h2, h3⟩ := h
  obtain ⟨_, isLocal, _, _, _, _, _, _, _, _, _, _, _⟩ := m
  cases h1; cases h2; cases h3
  cases isLocal <;> cases source <;> cases ps <;> cases pm <;> cases pc <;> rfl

/-- **Staging and saving.** A change that is not considered or changes nothing leaves the member
as it was; any other is saved as `updated` says. -/
theorem stage_save (h : m.Clean) (hs : ∀ s ∈ status, s.settable) :
    ∃ staged, m.stage clock nextClock status metadata = .ok staged ∧
      staged.save source nextClock now =
        if m.accepts source clock && m.changes status metadata
        then (true, m.updated source clock nextClock status metadata now) else (false, m) := by
  refine ⟨_, by rw [← h.pend_eq]; exact stage_pend hs, ?_⟩
  by_cases hacc : m.accepts source clock = true
  · have hsrc : (if clock > m.clock then some clock else none) ≠ none ∨
        source.map name = some m.name := by
      rw [accepts, Bool.or_eq_true, decide_eq_true_eq, beq_iff_eq] at hacc
      obtain hlt | he := hacc
      · exact Or.inl (by rw [if_pos hlt]; exact Option.some_ne_none _)
      · exact Or.inr he
    have hmax : (if clock > m.clock then some clock else none).getD m.clock =
        max clock m.clock := by
      split
      · rename_i hlt; exact (max_eq_left (le_of_lt hlt)).symm
      · rename_i hle; exact (max_eq_right (not_lt.mp hle)).symm
    rw [save_considered h hsrc, hmax, hacc, Bool.true_and]
    rfl
  · have hnone : (if clock > m.clock then some clock else none) = none := by
      refine if_neg fun hlt => hacc ?_
      rw [accepts, Bool.or_eq_true, decide_eq_true_eq]
      exact Or.inl hlt
    have hsrc : source.map name ≠ some m.name := by
      refine fun he => hacc ?_
      rw [accepts, Bool.or_eq_true, beq_iff_eq]
      exact Or.inr he
    rw [hnone, save_ignored _ _ hsrc, h.pend_eq, if_neg (by simp [hacc])]

end Stage

/-! ## Any call

A call of `_update` may also raise, or find a change pending. -/

theorem setClock_after (m : Member) (clock nextClock : Int) : ∃ pc,
    (m.setClock clock nextClock).after = m.pend pc m.pendingStatus m.pendingMetadata := by
  unfold setClock
  split
  · exact ⟨_, rfl⟩
  · split <;> exact ⟨_, rfl⟩

theorem setStatus_after (m : Member) (status : Status) : ∃ ps,
    (m.setStatus status).after = m.pend m.pendingClock ps m.pendingMetadata := by
  unfold setStatus
  split
  · exact ⟨_, rfl⟩
  · split
    · exact ⟨_, rfl⟩
    · split <;> exact ⟨_, rfl⟩

theorem setMetadata_after (m : Member) (metadata : Metadata) : ∃ pm,
    (m.setMetadata metadata).after = m.pend m.pendingClock m.pendingStatus pm := by
  unfold setMetadata
  split
  · exact ⟨_, rfl⟩
  · split <;> exact ⟨_, rfl⟩

theorem stage_after (m : Member) (clock nextClock : Int) (status : Option Status)
    (metadata : Option Metadata) : ∃ pc ps pm,
      (m.stage clock nextClock status metadata).after = m.pend pc ps pm := by
  have hthen : ∀ {r : Py Member} {f : Member → Py Member},
      (∃ pc ps pm, r.after = m.pend pc ps pm) →
      (∀ pc ps pm, ∃ pc' ps' pm', (f (m.pend pc ps pm)).after = m.pend pc' ps' pm') →
      ∃ pc ps pm, (r.andThen f).after = m.pend pc ps pm := by
    intro r f hr hf
    obtain ⟨pc, ps, pm, hr⟩ := hr
    cases r with
    | ok m' =>
      rw [Py.after_ok] at hr
      rw [Py.andThen_ok, hr]
      exact hf pc ps pm
    | error e => exact ⟨pc, ps, pm, hr⟩
  refine hthen ?_ fun pc ps pm => hthen ?_ fun pc ps pm => ?_
  · obtain ⟨pc, hc⟩ := setClock_after m clock nextClock
    exact ⟨_, _, _, hc⟩
  · cases status with
    | none => exact ⟨pc, ps, pm, rfl⟩
    | some s =>
      obtain ⟨ps', hs⟩ := setStatus_after (m.pend pc ps pm) s
      exact ⟨_, _, _, hs⟩
  · cases metadata with
    | none => exact ⟨pc, ps, pm, rfl⟩
    | some μ =>
      obtain ⟨pm', hm⟩ := setMetadata_after (m.pend pc ps pm) μ
      exact ⟨_, _, _, hm⟩

structure Kept (m m' : Member) : Prop where
  name : m'.name = m.name
  isLocal : m'.isLocal = m.isLocal
  validity : m'.validity = m.validity
  knownClocks : m'.knownClocks = m.knownClocks

theorem save_keeps (m : Member) (source : Option Member) (nextClock : Int) (now : Time) :
    m.Kept (m.save source nextClock now).2 ∧
      ((m.save source nextClock now).1 = false →
        (m.save source nextClock now).2.status = m.status) := by
  obtain ⟨_, isLocal, _, _, _, _, _, _, _, _, pc, ps, pm⟩ := m
  unfold save
  dsimp only
  split
  · exact ⟨⟨rfl, rfl, rfl, rfl⟩, fun _ => rfl⟩
  · cases isLocal <;> cases source <;> cases ps <;> cases pm <;> cases pc <;>
      exact ⟨⟨rfl, rfl, rfl, rfl⟩, by first | exact fun _ => rfl | (rintro ⟨⟩)⟩

/-! ## What an update keeps -/

section Updated

variable {m : Member} {source : Option Member} {clock nextClock : Int} {status : Option Status}
  {metadata : Option Metadata} {now : Time}

@[simp] theorem updated_name :
    (m.updated source clock nextClock status metadata now).name = m.name := by
  unfold updated; split <;> rfl

@[simp] theorem updated_isLocal :
    (m.updated source clock nextClock status metadata now).isLocal = m.isLocal := by
  unfold updated; split <;> rfl

@[simp] theorem updated_validity :
    (m.updated source clock nextClock status metadata now).validity = m.validity := by
  unfold updated; split <;> rfl

@[simp] theorem updated_knownClocks :
    (m.updated source clock nextClock status metadata now).knownClocks = m.knownClocks := by
  unfold updated; split <;> rfl

theorem updated_clean (h : m.Clean) :
    (m.updated source clock nextClock status metadata now).Clean := by
  unfold updated; split <;> exact h

theorem updated_clock_of_ignored (h : (m.isLocal && source.isSome) = true) :
    (m.updated source clock nextClock status metadata now).clock = nextClock := by
  rw [updated, if_pos h]

theorem updated_clock (h : (m.isLocal && source.isSome) = false) :
    (m.updated source clock nextClock status metadata now).clock = max clock m.clock := by
  rw [updated, if_neg (by simp [h])]

end Updated

end Member

end Swim
