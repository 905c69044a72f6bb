import Mathlib.Data.Int.ConditionallyCompleteOrder
import Mathlib.Order.ConditionallyCompleteLattice.Basic
import Swim.WorkerEffect

/-!
# Swim.Holding

What a table holds about a member, as far as gossip is concerned, and what a step of a worker does
to it.

* `clockOf`, `dataOf`, `knownOf` — the clock and the metadata held for a member, and the clock
  another member has acknowledged for it.
* `Shift` — the frame of a step: at most one entry is written and one acknowledgement recorded.
* `Action.change` — the call of `_update` an action makes, by the worker or by its handler.
* `step_shift`, `step_applied` — every step shifts the table, and the entry it writes is what
  `_update` makes of the member that `get` finds.
* `gossip_dataOf` — the metadata held after gossip.
-/

namespace Swim

abbrev Clock := WithBot Int

def Clock.ofOption (c : Option Int) : Clock := c.elim ⊥ fun c => (c : Clock)

theorem Clock.le_ofOption {c : Int} {o : Option Int} :
    (c : Clock) ≤ Clock.ofOption o ↔ ∃ x ∈ o, c ≤ x := by
  cases o with
  | none => simp [Clock.ofOption]
  | some x => simp [Clock.ofOption]

theorem Clock.lt_ofOption {c : Int} {o : Option Int} :
    (c : Clock) < Clock.ofOption o ↔ ∃ x ∈ o, c < x := by
  cases o with
  | none => simp [Clock.ofOption]
  | some x => simp [Clock.ofOption]

namespace Members

variable {M M' M₁ : Members} {n k b : Name} {m m' : Member} {env : Env}

/-- `⊥` for a name that is not in the table. -/
def clockOf (M : Members) (n : Name) : Clock := .ofOption ((M.members n).map Member.clock)

def dataOf (M : Members) (n : Name) : Option Metadata := (M.members n).bind Member.metadataDict

def knownOf (M : Members) (b n : Name) : Option Int :=
  (M.members b).bind fun t => t.knownClocks n

theorem clockOf_some (h : M.members n = some m) : M.clockOf n = m.clock := by rw [clockOf, h]; rfl

theorem clockOf_none (h : M.members n = none) : M.clockOf n = ⊥ := by rw [clockOf, h]; rfl

theorem dataOf_some (h : M.members n = some m) : M.dataOf n = m.metadataDict := by
  rw [dataOf, h]; rfl

theorem dataOf_none (h : M.members n = none) : M.dataOf n = none := by rw [dataOf, h]; rfl

theorem knownOf_eq_some {c : Int} : M.knownOf b n = some c ↔
    ∃ t, M.members b = some t ∧ t.knownClocks n = some c := Option.bind_eq_some_iff

theorem le_clockOf {c : Int} : (c : Clock) ≤ M.clockOf n ↔
    ∃ m, M.members n = some m ∧ c ≤ m.clock := by
  rw [clockOf, Clock.le_ofOption]
  simp

theorem clockOf_le_found : M.clockOf n ≤ ((M.found n env).clock : Clock) := by
  cases h : M.members n with
  | none => rw [clockOf_none h]; exact bot_le
  | some m => rw [clockOf_some h, found_of_some h]

theorem dataOf_found : M.dataOf n = (M.found n env).metadataDict := by
  cases h : M.members n with
  | none => rw [dataOf_none h, found_of_none h]; rfl
  | some m => rw [dataOf_some h, found_of_some h]

theorem Keyed.found_isLocal (h : M.Keyed) : (M.found n env).isLocal = true ↔ n = M.localName := by
  cases hm : M.members n with
  | some m => rw [found_of_some hm]; exact h.isLocal n m hm
  | none =>
    rw [found_of_none hm]
    refine iff_of_false Bool.false_ne_true ?_
    rintro rfl
    have hlocal := h.hasLocal
    rw [hm] at hlocal; cases hlocal

theorem Keyed.found_name (h : M.Keyed) : (M.found n env).name = n := by
  cases hm : M.members n with
  | some m => rw [found_of_some hm]; exact h.name n m hm
  | none => rw [found_of_none hm]; rfl

/-- Only the entry of `written` may have changed its data or lowered its clock, and the only new
acknowledgement is `learned`: the member, what it acknowledged, and the clock. -/
structure Shift (M M' : Members) (written : Option Name) (learned : Option (Name × Name × Int)) :
    Prop where
  clock : ∀ k, written ≠ some k → M.clockOf k ≤ M'.clockOf k
  data : ∀ k, written ≠ some k → M'.dataOf k = M.dataOf k
  known : ∀ b k c, M'.knownOf b k = some c → M.knownOf b k = some c ∨ learned = some (b, k, c)

theorem Shift.refl (M : Members) : M.Shift M none none :=
  ⟨fun _ _ => le_rfl, fun _ _ => rfl, fun _ _ _ h => Or.inl h⟩

theorem Looks.shift (h : M.Looks M') : M.Shift M' none none where
  clock := by
    intro k _
    cases hk : M.members k with
    | none => rw [clockOf_none hk]; exact bot_le
    | some m =>
      obtain ⟨m', hm', hs⟩ := h.entry k m hk
      rw [clockOf_some hk, clockOf_some hm', hs.clock]
  data := by
    intro k _
    cases hk : M.members k with
    | some m =>
      obtain ⟨m', hm', hs⟩ := h.entry k m hk
      rw [dataOf_some hk, dataOf_some hm', hs.metadataDict]
    | none =>
      rw [dataOf_none hk]
      cases hk' : M'.members k with
      | none => exact dataOf_none hk'
      | some m' =>
        obtain ⟨m, hm, -⟩ | ⟨-, env, hs⟩ := h.origin k m' hk'
        · rw [hk] at hm; cases hm
        · rw [dataOf_some hk', hs.metadataDict]; rfl
  known := by
    intro b k c hc
    obtain ⟨t', ht', hc⟩ := knownOf_eq_some.mp hc
    obtain ⟨t, ht, hs⟩ | ⟨-, env, hs⟩ := h.origin b t' ht'
    · exact Or.inl (knownOf_eq_some.mpr ⟨t, ht, hs.known hc⟩)
    · cases hs.known hc

theorem Shift.write (h : M.Shift M₁ none none) (hm : M₁.members n = some m)
    (hmem : M'.members = Function.update M₁.members n (some m'))
    (hknown : m'.knownClocks = m.knownClocks) : M.Shift M' (some n) none := by
  have hother : ∀ k, k ≠ n → M'.members k = M₁.members k := by
    intro k hk
    rw [hmem, Function.update_of_ne hk]
  refine ⟨fun k hk => ?_, fun k hk => ?_, fun b k c hc => ?_⟩
  · have hc : M'.clockOf k = M₁.clockOf k := by
      rw [clockOf, clockOf, hother k (by rintro rfl; exact hk rfl)]
    rw [hc]; exact h.clock k (by rintro ⟨⟩)
  · have hd : M'.dataOf k = M₁.dataOf k := by
      rw [dataOf, dataOf, hother k (by rintro rfl; exact hk rfl)]
    rw [hd]; exact h.data k (by rintro ⟨⟩)
  · refine h.known b k c ?_
    obtain ⟨t, ht, hc⟩ := knownOf_eq_some.mp hc
    by_cases hb : b = n
    · subst hb
      rw [hmem, Function.update_self] at ht
      cases ht
      exact knownOf_eq_some.mpr ⟨m, hm, by rw [← hknown]; exact hc⟩
    · exact knownOf_eq_some.mpr ⟨t, by rw [← hother b hb]; exact ht, hc⟩

theorem Shift.put_acked (h : M.Shift M₁ none none) {source : Member} {c : Int}
    (hs : M₁.members source.name = some source) :
    M.Shift (M₁.put (acked source n c)) none (some (source.name, n, c)) := by
  have hentry : ∀ k, (M₁.put (acked source n c)).members k = M₁.members k ∨
      k = source.name ∧ (M₁.put (acked source n c)).members k = some (acked source n c) := by
    intro k
    by_cases hk : k = source.name
    · subst hk
      exact Or.inr ⟨rfl, Function.update_self _ _ _⟩
    · exact Or.inl (Function.update_of_ne hk _ _)
  refine ⟨fun k _ => ?_, fun k _ => ?_, fun b k c' hc => ?_⟩
  · refine le_trans (h.clock k (by rintro ⟨⟩)) (le_of_eq ?_)
    obtain hk | ⟨rfl, hk⟩ := hentry k
    · rw [clockOf, clockOf, hk]
    · rw [clockOf_some hs, clockOf_some hk]; rfl
  · rw [← h.data k (by rintro ⟨⟩)]
    obtain hk | ⟨rfl, hk⟩ := hentry k
    · rw [dataOf, dataOf, hk]
    · rw [dataOf_some hs, dataOf_some hk]; rfl
  · obtain ⟨t, ht, hc⟩ := knownOf_eq_some.mp hc
    obtain hb | ⟨rfl, hb⟩ := hentry b
    · refine Or.inl ((h.known b k c' ?_).resolve_right (by rintro ⟨⟩))
      exact knownOf_eq_some.mpr ⟨t, by rw [← hb]; exact ht, hc⟩
    · rw [hb] at ht
      cases ht
      by_cases hk : k = n
      · subst hk
        have heq : c = c' := by
          have hself : (acked source k c).knownClocks k = some c := Function.update_self _ _ _
          exact Option.some.inj (hself.symm.trans hc)
        exact Or.inr (by rw [heq])
      · have hold : source.knownClocks k = some c' := by
          rw [← hc]; exact (Function.update_of_ne hk _ _).symm
        refine Or.inl ((h.known _ k c' ?_).resolve_right (by rintro ⟨⟩))
        exact knownOf_eq_some.mpr ⟨source, hs, hold⟩

end Members

theorem Member.Same.applied {m m' : Member} (h : m.Same m') (source : Option Member)
    (clock nextClock : Int) (status : Option Status) (metadata : Option Metadata) (now : Time) :
    (m.applied source clock nextClock status metadata now).Same
      (m'.applied source clock nextClock status metadata now) := by
  obtain ⟨v, known, rfl, hk⟩ := h
  refine ⟨v, known, ?_, fun k c hc => by rw [Member.applied_knownClocks]; exact hk k c hc⟩
  have hacc : Member.accepts { m with validity := v, knownClocks := known } source clock =
      m.accepts source clock := rfl
  have hch : Member.changes { m with validity := v, knownClocks := known } status metadata =
      m.changes status metadata := rfl
  simp only [Member.applied, hacc, hch]
  split
  · simp only [Member.updated]
    split <;> rfl
  · rfl

namespace Worker

variable {w w' : Worker} {action : Action} {env : Env}

/-- The member an action updates, and the source, clock, status and metadata it passes on. -/
def Action.change (nextClock : Int) :
    Action → Option (Name × Option Name × Int × Option Status × Option Metadata)
  | .receive (.gossip g) =>
    some (g.name, some g.source.name, g.clock, some g.status, g.metadata)
  | action => action.edit.map fun (name, status, metadata) =>
    (name, none, nextClock, status, metadata)

theorem Action.change_none {nextClock clock : Int} {n : Name} {status : Option Status}
    {metadata : Option Metadata}
    (h : action.change nextClock = some (n, none, clock, status, metadata)) :
    clock = nextClock := by
  cases action with
  | receive packet => cases packet <;> cases h
  | ping | pingReq | disseminate => cases h
  | verdict | expire | update => cases h; rfl

def Action.learned : Action → Option (Name × Name × Int)
  | .receive (.gossipAck a) => some (a.source.name, a.name, a.clock)
  | _ => none

/-- **The frame of a step.** -/
theorem step_shift (h : w.members.Wf) (ha : action.Honest) (hs : w.step action env = some w') :
    w.members.Shift w'.members ((action.change w.members.nextClock).map Prod.fst)
      action.learned := by
  obtain ⟨packet, rfl, -, rfl⟩ | ⟨name, status, metadata, m, M', he, hr, hm, -, -, hM', rfl⟩ |
    ⟨he, hne, rfl⟩ := step_cases h ha hs
  · rw [receive_members h.toKeyed]
    have hchatter : packet.chatter = true →
        w.members.Shift (w.members.handled packet env).after none none := by
      intro hc
      obtain ⟨M', hM', -, hl⟩ := @Members.Wf.handled_chatter w.members packet env h hc
      rw [hM']; exact hl.shift
    cases packet with
    | ping | pingReq | ack => exact hchatter rfl
    | gossip g =>
      obtain ⟨M₁, m, source, M', hM', -, hl, hm, -, -, -, -, hmem, -⟩ := h.handled_gossip ha
      rw [hM']
      exact hl.shift.write hm hmem Member.applied_knownClocks
    | gossipAck a =>
      obtain ⟨M₁, source, -, hl, hsrc, hname, hM'⟩ := h.handled_gossipAck a
      rw [hM']
      split
      · have hshift := hl.shift.put_acked (n := a.name) (c := a.clock) hsrc
        rw [hname] at hshift
        exact hshift
      · obtain ⟨hc, hd, hk⟩ := hl.shift
        exact ⟨hc, hd, fun b k c hb => Or.inl ((hk b k c hb).resolve_right (by rintro ⟨⟩))⟩
  · obtain ⟨M'', hM'', -, -, hmem⟩ := @update_ok w env h name m hm status metadata hr
    cases hM'.symm.trans hM''
    have hshift := (Members.Shift.refl w.members).write hm hmem Member.applied_knownClocks
    cases action with
    | verdict | expire | update => cases he; exact hshift
    | receive | ping | pingReq | disseminate => cases he
  · cases action with
    | receive packet => exact absurd rfl (hne packet)
    | ping | pingReq | disseminate => exact .refl _
    | verdict | expire | update => cases he

/-- **The entry a step writes.** -/
theorem step_applied (h : w.members.Wf) (ha : action.Honest) (hs : w.step action env = some w')
    {n : Name} {source : Option Name} {clock : Int} {status' : Option Status}
    {metadata' : Option Metadata}
    (hc : action.change w.members.nextClock = some (n, source, clock, status', metadata')) :
    ∃ src m', src.map Member.name = source ∧ w'.members.members n = some m' ∧
      ((w.members.found n env).applied src clock w.members.nextClock status' metadata'
        env.now).Same m' := by
  obtain ⟨packet, rfl, -, rfl⟩ | ⟨name, status, metadata, m, M', he, hr, hm, -, -, hM', rfl⟩ |
    ⟨he, hne, rfl⟩ := step_cases h ha hs
  · cases packet with
    | ping | pingReq | ack | gossipAck => cases hc
    | gossip g =>
      cases hc
      obtain ⟨M₁, m, source, M', hM', -, -, -, -, hsrc, -, -, hmem, hsame⟩ :=
        @Members.Wf.handled_gossip w.members env h g ha
      refine ⟨some source, _, congrArg some hsrc, ?_, hsame.applied _ _ _ _ _ _⟩
      rw [receive_members h.toKeyed, hM', Py.after_ok, hmem]
      exact Function.update_self _ _ _
  · obtain ⟨M'', hM'', -, -, hmem⟩ := @update_ok w env h name m hm status metadata hr
    cases hM'.symm.trans hM''
    have hedit : some (name, none, w.members.nextClock, status, metadata) =
        some (n, source, clock, status', metadata') := by
      cases action with
      | verdict | expire | update => cases he; exact hc
      | receive | ping | pingReq | disseminate => cases he
    cases hedit
    refine ⟨none, _, rfl, ?_, Member.Same.refl _⟩
    rw [Members.found_of_some hm]
    exact (congrFun hmem _).trans (Function.update_self _ _ _)
  · cases action with
    | receive packet => exact absurd rfl (hne packet)
    | ping | pingReq | disseminate => cases hc
    | verdict | expire | update => cases he

/-- **The metadata after gossip**: those of the gossip when it names another member and is
considered, and carries any. -/
theorem gossip_dataOf (h : w.members.Wf) {g : Gossip} (hg : (Packet.gossip g).Honest)
    (hs : w.step (.receive (.gossip g)) env = some w') : w'.members.dataOf g.name =
      if g.name ≠ w.members.localName ∧
        ((w.members.found g.name env).clock < g.clock ∨ g.source.name = g.name)
      then g.metadata.or (w.members.dataOf g.name) else w.members.dataOf g.name := by
  obtain ⟨src, m', hsrc, hm', hsame⟩ :=
    @step_applied w w' (.receive (.gossip g)) env h hg hs _ _ _ _ _ rfl
  obtain ⟨source, rfl⟩ : ∃ source, src = some source := by
    cases src with
    | none => cases hsrc
    | some source => exact ⟨source, rfl⟩
  have hset : (w.members.found g.name env).Settled w.members.nextClock := h.found_settled
  have hlocal : (w.members.found g.name env).isLocal = true ↔ g.name = w.members.localName :=
    h.toKeyed.found_isLocal
  have hacc : (w.members.found g.name env).accepts (some source) g.clock = true ↔
      (w.members.found g.name env).clock < g.clock ∨ g.source.name = g.name := by
    have hname : (w.members.found g.name env).name = g.name := h.toKeyed.found_name
    rw [Member.accepts, Bool.or_eq_true, decide_eq_true_eq, beq_iff_eq, hname, hsrc,
      Option.some.injEq]
  rw [Members.dataOf_some hm', hsame.metadataDict, @Members.dataOf_found w.members g.name env]
  split
  · rename_i hboth
    refine Member.applied_metadataDict hset.dict ?_ (hacc.mpr hboth.2)
    rw [Bool.and_eq_false_iff, ← Bool.not_eq_true, hlocal]
    exact Or.inl hboth.1
  · rename_i hnot
    by_cases hn : g.name = w.members.localName
    · -- the local branch of `_save`
      exact Member.applied_metadataDict_ignored (by rw [hlocal.mpr hn]; rfl)
    · have hno : ¬ (w.members.found g.name env).accepts (some source) g.clock = true := fun hyes =>
        hnot ⟨hn, hacc.mp hyes⟩
      rw [Member.applied_of_not_accepts (Bool.not_eq_true _ ▸ hno)]

end Worker

end Swim
