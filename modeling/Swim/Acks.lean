import Swim.Round
import Swim.Stale
import Swim.Collection.Latest

/-!
# Swim.Acks

Acknowledgements from one incarnation of a peer, handled in any order and any number of times.

* `Members.record` — what an incarnation has acknowledged, of each member.
* `sent_below`     — a clock that was sent is below the next one, so that its acknowledgement
  passes the assertion of `ack_gossip`.
* `handles_acks`   — the record is overwritten by each acknowledgement.
* `acks_iff`       — so it keeps the greatest clock of each member exactly if the latest
  acknowledgement about it has it.
-/

namespace Swim

open Transition Collection

namespace Members

variable {M : Members} {s : Source} {a : GossipAck} {env : Env}

/-- What the incarnation `s` of a member has acknowledged. -/
def record (M : Members) (s : Source) : Name → Option Int :=
  match M.members s.name with
  | some t => if t.isLocal = true ∨ t.validity = s.validity then t.knownClocks else fun _ => none
  | none => fun _ => none

def Knows (M : Members) (s : Source) (t : Member) : Prop :=
  M.members s.name = some t ∧ (t.isLocal = true ∨ t.validity = s.validity)

theorem Knows.record {t : Member} (h : M.Knows s t) : M.record s = t.knownClocks := by
  simp only [Members.record, h.1, if_pos h.2]

theorem got_record : (M.got s.name (some s.validity) env).knownClocks = M.record s := by
  rw [got.eq_def, record]
  cases M.members s.name with
  | none =>
    dsimp only [Option.getD_none]
    split
    · rfl
    · rfl
  | some t =>
    dsimp only [Option.getD_some]
    cases hl : t.isLocal with
    | true => simp
    | false =>
      by_cases hv : t.validity = s.validity
      · simp [hv]
      · simp [hl, hv, Member.reset]

theorem got_current : (M.got s.name (some s.validity) env).isLocal = true ∨
    (M.got s.name (some s.validity) env).validity = s.validity := by
  cases hl : (M.got s.name (some s.validity) env).isLocal with
  | true => exact Or.inl rfl
  | false => exact Or.inr (got_validity hl)

theorem Keyed.ack_knows (h : M.Keyed) (hle : a.clock ≤ M.nextClock) :
    ∃ t, (M.handled (.gossipAck a) env).after.Knows a.source t ∧
      t.knownClocks = Function.update (M.record a.source) a.name (some a.clock) := by
  refine ⟨_, ⟨h.ack_self hle, @got_current M a.source env⟩, ?_⟩
  rw [← @got_record M a.source env]
  rfl

end Members

def Packet.entry : Packet → Option (Name × Int)
  | gossip g => some (g.name, g.clock)
  | ping _ | pingReq _ _ | ack _ | gossipAck _ => none

namespace Worker

variable {w w' : Worker} {s : Source} {action : Action} {env : Env}

/-! ## Sent clocks -/

def sent (w : Worker) : List (Name × Int) := w.sendQueue.filterMap fun p => p.2.entry

theorem mem_sent {e : Name × Int} : e ∈ w.sent ↔
    ∃ target g, (target, Packet.gossip g) ∈ w.sendQueue ∧ e = (g.name, g.clock) := by
  rw [sent, List.mem_filterMap]
  constructor
  · rintro ⟨⟨target, packet⟩, hp, he⟩
    cases packet with
    | gossip g => exact ⟨target, g, hp, (Option.some.inj he).symm⟩
    | ping | pingReq | ack | gossipAck => cases he
  · rintro ⟨target, g, hp, rfl⟩
    exact ⟨_, hp, rfl⟩

theorem not_mem_queued {packet : Packet} {target : Name} {g : Gossip} :
    (target, Packet.gossip g) ∉ w.queued packet env := by
  intro hmem
  rcases List.mem_append.mp hmem with hrelayed | hreply
  · obtain ⟨_, -, heq⟩ := List.mem_map.mp hrelayed
    cases heq
  · cases hr : w.members.handled packet env with
    | error r => rw [hr] at hreply; cases hreply
    | ok M => rw [hr] at hreply; cases packet <;> simp [reply] at hreply

theorem step_gossips (h : w.members.Keyed) (hs : w.step action env = some w') {target : Name}
    {g : Gossip} (hg : (target, Packet.gossip g) ∈ w'.sendQueue) :
    (target, Packet.gossip g) ∈ w.sendQueue ∨
      ∃ m, w.members.members m.name = some m ∧ g.clock = m.clock := by
  by_cases ha : ∃ packet, action = .receive packet
  · obtain ⟨packet, rfl⟩ := ha
    rw [(step_receive hs).2, receive_eq h] at hg
    exact Or.inl ((List.mem_append.mp hg).resolve_right not_mem_queued)
  · rw [(step_sendQueue h hs fun packet hp => ha ⟨packet, hp⟩).1] at hg
    refine (List.mem_append.mp hg).imp_right fun hnew => ?_
    cases action with
    | ping t => cases List.mem_singleton.mp hnew
    | pingReq t indirects => obtain ⟨_, -, heq⟩ := List.mem_map.mp hnew; cases heq
    | disseminate t =>
      rw [outgoing] at hnew
      cases hm : w.peer t with
      | none => rw [hm] at hnew; cases hnew
      | some m =>
        rw [hm] at hnew
        obtain ⟨x, hx, heq⟩ := List.mem_map.mp hnew
        cases heq
        exact ⟨x, (h.mem_getGossip.mp hx).1, rfl⟩
    | receive | verdict | expire | update => cases hnew

theorem step_nextClock (h : w.members.Ordered) (hs : w.step action env = some w') :
    w.members.nextClock ≤ w'.members.nextClock := by
  obtain ⟨ops, -, hrun⟩ := step_calls h.keyed hs
  exact (Members.le_nextClock_run h hrun).1

/-- **Sent clocks** are below the next one after any steps. -/
theorem sent_below {config : Config} {env₀ : Env} {hist : List (Action × Env)}
    (hw : run next (init config env₀) hist = some w) : ∀ e ∈ w.sent, e.2 < w.members.nextClock := by
  refine ((always_of_along
    (P := fun w : Worker => w.members.Ordered ∧ ∀ e ∈ w.sent, e.2 < w.members.nextClock)
    ⟨(Members.reachable_init config env₀).ordered, ?_⟩ (along_true _ hist)
    fun w l w' h _ hs => ⟨step_ordered h.1 hs, ?_⟩).last hw).2
  · intro e he
    cases he
  · intro e he
    have hle := step_nextClock h.1 hs
    obtain ⟨target, g, hg, rfl⟩ := mem_sent.mp he
    obtain hold | ⟨m, hm, hclock⟩ := step_gossips h.1.keyed hs hg
    · exact lt_of_lt_of_le (h.2 _ (mem_sent.mpr ⟨target, g, hold, rfl⟩)) hle
    · have hbelow := (h.1.tidy _ m hm).below
      rw [← hclock] at hbelow
      exact lt_of_lt_of_le hbelow hle

/-! ## Any acknowledgements -/

def entryOf (a : GossipAck) : Name × Int := (a.name, a.clock)

/-- **Acknowledgements from one incarnation**, of clocks the assertion lets pass, are handled one
after the other, and the record is overwritten by each. -/
theorem handles_acks {acks : List (GossipAck × Env)} (h : w.members.Keyed) (hf : w.failed = none)
    (hacks : ∀ a ∈ acks, a.1.source = s ∧ a.1.clock ≤ w.members.nextClock) :
    ∃ w', w.handles (acks.map fun a => (.gossipAck a.1, a.2)) = some w' ∧ w'.members.Keyed ∧
      w'.members.record s = overwrite (w.members.record s) (acks.map fun a => entryOf a.1) ∧
      (acks ≠ [] → ∃ t, w'.members.Knows s t) := by
  induction acks generalizing w with
  | nil => exact ⟨w, rfl, h, rfl, fun hne => absurd rfl hne⟩
  | cons a acks ih =>
    obtain ⟨rfl, hle⟩ := hacks a List.mem_cons_self
    obtain ⟨t, hknows, hrecord⟩ := @Members.Keyed.ack_knows w.members a.1 a.2 h hle
    have hmembers : (w.receive (.gossipAck a.1) a.2).members =
        (w.members.handled (.gossipAck a.1) a.2).after := receive_members h
    have hkeyed : (w.receive (.gossipAck a.1) a.2).members.Keyed := by
      rw [hmembers]; exact h.handled
    have hnext : (w.receive (.gossipAck a.1) a.2).members.nextClock = w.members.nextClock := by
      rw [hmembers]; exact h.ack_nextClock hle
    have halive : (w.receive (.gossipAck a.1) a.2).failed = none := by
      rw [receive_failed h, h.handled_ack hle]; rfl
    rw [← hmembers] at hknows
    obtain ⟨w', hw', hkeyed', hall, hlast⟩ := ih hkeyed halive fun b hb => by
      rw [hnext]; exact hacks b (List.mem_cons_of_mem _ hb)
    refine ⟨w', by rw [List.map_cons, handles_cons hf, hw'], hkeyed', ?_, fun _ => ?_⟩
    · rw [hall, hknows.record, hrecord]; rfl
    · by_cases hnil : acks = []
      · subst hnil
        cases hw'
        exact ⟨t, hknows⟩
      · exact hlast hnil

/-- The record is the greatest clock acknowledged for each member, or recorded before, and what was
acknowledged is not sent again. -/
structure Merges (w w' : Worker) (s : Source) (acks : List GossipAck) : Prop where
  greatest : ∀ n c, w'.members.record s n = some c ↔
    IsGreatest (given (w.members.record s) (acks.map entryOf) n) c
  known : ∀ t, w'.members.Knows s t → ∀ x, w'.members.members x.name = some x →
    (∃ c ∈ given (w.members.record s) (acks.map entryOf) x.name, x.clock ≤ c) →
      t.needsGossip x = false

/-- **Acknowledgements commute** exactly if the latest one about each member is the greatest. -/
theorem acks_iff (config : Config) (env₀ : Env) (hist : List (Action × Env)) (w : Worker)
    (hw : run next (init config env₀) hist = some w) (hf : w.failed = none) (s : Source)
    (acks : List (GossipAck × Env)) (hacks : ∀ a ∈ acks, a.1.source = s ∧ entryOf a.1 ∈ w.sent) :
    ∃ w', w.handles (acks.map fun a => (.gossipAck a.1, a.2)) = some w' ∧
      (acks ≠ [] → ∃ t, w'.members.Knows s t ∧ w'.members.record s = t.knownClocks) ∧
      (w.Merges w' s (acks.map Prod.fst) ↔
        ∀ n c, latest ((acks.map Prod.fst).map entryOf) n = some c →
          c ∈ upperBounds (given (w.members.record s) ((acks.map Prod.fst).map entryOf) n)) := by
  have hle : ∀ a ∈ acks, a.1.source = s ∧ a.1.clock ≤ w.members.nextClock := fun a ha =>
    ⟨(hacks a ha).1, le_of_lt (sent_below hw _ (hacks a ha).2)⟩
  obtain ⟨w', hw', -, hrecord, hknows⟩ := handles_acks (run_ordered hw).keyed hf hle
  have heq : w'.members.record s =
      overwrite (w.members.record s) ((acks.map Prod.fst).map entryOf) := by
    rw [hrecord, List.map_map]
    rfl
  refine ⟨w', hw', fun hne => ?_, fun h n => ?_, fun h => ⟨fun n c => ?_, ?_⟩⟩
  · obtain ⟨t, ht⟩ := hknows hne
    exact ⟨t, ht, ht.record⟩
  · exact overwrite_isGreatest_iff.mp fun c => by rw [← heq]; exact h.greatest n c
  · rw [heq]
    exact overwrite_isGreatest_iff.mpr (h n) c
  · rintro t ht x - ⟨c, hc, hxc⟩
    -- some clock at least that of the member is in the record
    have hbound : ∃ k, t.knownClocks x.name = some k ∧ c ≤ k := by
      rw [← ht.record, heq, overwrite_eq]
      cases hl : latest ((acks.map Prod.fst).map entryOf) x.name with
      | some k => exact ⟨k, rfl, h _ k hl hc⟩
      | none => exact ⟨c, hc.resolve_right (not_mem_of_latest hl), le_rfl⟩
    obtain ⟨k, hk, hck⟩ := hbound
    rw [Member.needsGossip, hk, Option.getD_some, decide_eq_false_iff_not]
    omega

/-- `a` tells `b` its metadata, changes them, and tells `b` again. -/
def twiceTold : List (Action × Env) :=
  [(.disseminate "b", still), (.update "a" none (some (Cluster.colour 1)), still),
    (.disseminate "b", still)]

/-- The acknowledgement of the first gossip arrives after that of the second. -/
def crossed : List (GossipAck × Env) :=
  [(⟨⟨"b", []⟩, "a", 2⟩, still), (⟨⟨"b", []⟩, "a", 1⟩, still)]

theorem twiceTold_crossed : ∃ w w', run next (init nodeA still) twiceTold = some w ∧
    w.failed = none ∧ (∀ a ∈ crossed, a.1.source = ⟨"b", []⟩ ∧ entryOf a.1 ∈ w.sent) ∧
      w.handles (crossed.map fun a => (.gossipAck a.1, a.2)) = some w' ∧
      w'.members.record ⟨"b", []⟩ "a" = some 1 := by
  have hrun : ((run next (init nodeA still) twiceTold).bind fun w =>
      (w.handles (crossed.map fun a => (.gossipAck a.1, a.2))).map fun w' =>
        (w.failed, w.sent, w'.members.record ⟨"b", []⟩ "a")) =
      some (none, [("a", 1), ("a", 2)], some 1) := by decide +kernel
  obtain ⟨w, hw, hrun⟩ := Option.bind_eq_some_iff.mp hrun
  obtain ⟨w', hw', heq⟩ := Option.map_eq_some_iff.mp hrun
  obtain ⟨hf, hsent, hrecord⟩ : w.failed = none ∧ w.sent = [("a", 1), ("a", 2)] ∧
      w'.members.record ⟨"b", []⟩ "a" = some 1 := by
    simpa only [Prod.mk.injEq] using heq
  refine ⟨w, w', hw, hf, ?_, hw', hrecord⟩
  rw [hsent]
  decide

theorem acks_iff_crossed : ∃ w w', run next (init nodeA still) twiceTold = some w ∧
    w.handles (crossed.map fun a => (.gossipAck a.1, a.2)) = some w' ∧
    (w.Merges w' ⟨"b", []⟩ (crossed.map Prod.fst) ↔
      ∀ n c, latest ((crossed.map Prod.fst).map entryOf) n = some c → c ∈ upperBounds
        (given (w.members.record ⟨"b", []⟩) ((crossed.map Prod.fst).map entryOf) n)) := by
  obtain ⟨w, _, hw, hf, hsent, -⟩ := twiceTold_crossed
  obtain ⟨w', hw', -, hiff⟩ := acks_iff nodeA still twiceTold w hw hf ⟨"b", []⟩ crossed hsent
  exact ⟨w, w', hw, hw', hiff⟩

theorem not_acks : ¬ ∀ (config : Config) (env₀ : Env) (hist : List (Action × Env)) (w : Worker),
    run next (init config env₀) hist = some w → w.failed = none →
    ∀ (s : Source) (acks : List (GossipAck × Env)),
      (∀ a ∈ acks, a.1.source = s ∧ entryOf a.1 ∈ w.sent) → ∀ w',
      w.handles (acks.map fun a => (.gossipAck a.1, a.2)) = some w' →
        w.Merges w' s (acks.map Prod.fst) := by
  intro h
  obtain ⟨w, w', hw, hf, hsent, hw', hrecord⟩ := twiceTold_crossed
  have hmerges := h nodeA still twiceTold w hw hf ⟨"b", []⟩ crossed hsent w' hw'
  have hgreatest := (hmerges.greatest "a" 1).mp hrecord
  have hle : (2 : Int) ≤ 1 := hgreatest.2 (Or.inr (by decide))
  omega

end Worker

end Swim
