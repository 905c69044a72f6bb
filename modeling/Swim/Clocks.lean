import Swim.Simulation

/-!
# Swim.Clocks

The clocks of a cluster whose nodes never restart.

* `Disciplined`      — what holds of the clocks in every reachable state: they stay below the
  counter, never go back, grow with every `update` that changes something, and bound what has
  been acknowledged.
* `clock_discipline` — every reachable state is `Disciplined`.
* `AckHeld`          — what a node has acknowledged about another one, it holds.
* `ackHeld_along`    — `AckHeld` in every run in which gossip above the clock held is never a mere
  repetition. `_save` does not store the clock of a repetition, but it is acknowledged.
-/

namespace Swim

open Transition

namespace Cluster

def Steady (_C : Cluster) (l : Event × Env) : Prop := l.1.Honest ∧ l.1.isRestart = false

instance (C : Cluster) (l : Event × Env) : Decidable (C.Steady l) :=
  inferInstanceAs (Decidable (_ ∧ _))

structure Disciplined (C : Cluster) : Prop where
  below : ∀ n w, C.nodes n = some w → ∀ m x, w.members.members m = some x →
    x.clock < w.members.nextClock
  forward : ∀ ls C', Along next Steady C ls → run next C ls = some C' →
    ∀ n w, C.nodes n = some w → ∀ m x, w.members.members m = some x →
      ∃ w' x', C'.nodes n = some w' ∧ w'.members.members m = some x' ∧ x.clock ≤ x'.clock
  fresh : ∀ n w, C.nodes n = some w → ∀ m x, w.members.members m = some x →
    ∀ newStatus newMetadata env, (∀ s ∈ newStatus, s.real) →
      ∃ M' x', w.members.update x newStatus newMetadata env = .ok M' ∧ M'.members m = some x' ∧
        (x' ≠ x → ∀ k y, w.members.members k = some y → y.clock < x'.clock)
  known : ∀ n w, C.nodes n = some w → ∀ b t, w.members.members b = some t →
    ∀ m c, t.knownClocks m = some c → ∃ x, w.members.members m = some x ∧ c ≤ x.clock
  acks : ∀ n a, (n, .gossipAck a) ∈ C.net → ∀ w, C.nodes n = some w →
    ∃ x, w.members.members a.name = some x ∧ a.clock ≤ x.clock
  survives : ∀ n packet, (n, packet) ∈ C.net → ∀ w, C.nodes n = some w →
    ∀ env, (w.runHandler packet env).raised = none

variable {C C' : Cluster} {l : Event × Env} {n m : Name} {w w' : Worker}

theorem next_grows (h : C.Sane) (hl : C.Steady l) (hs : C.next l = some C')
    (hw : C.nodes n = some w) : ∃ w', C'.nodes n = some w' ∧ w.members.Grows w'.members := by
  obtain ⟨k, action, w₀, w₁, net, hstep, hw₀, hw₁, -, hmem, rfl⟩ | ⟨-, hnodes, -⟩ :=
    steady_cases hl.2 hs
  · by_cases hn : n = k
    · subst hn
      cases hw₀.symm.trans hw
      exact ⟨_, put_nodes_self, (Worker.step_wf (h.wf n w hw) (h.action hl.1 hstep hmem) hw₁).2⟩
    · exact ⟨w, by rw [put_nodes_of_ne hn]; exact hw, .refl _⟩
  · exact ⟨w, by rw [hnodes]; exact hw, .refl _⟩

theorem run_grows (h : C.Sane) {ls : List (Event × Env)} (hls : Along next Steady C ls)
    (hr : run next C ls = some C') (hw : C.nodes n = some w) :
    ∃ w', C'.nodes n = some w' ∧ w.members.Grows w'.members := by
  induction ls generalizing C w with
  | nil => cases hr; exact ⟨w, hw, .refl _⟩
  | cons l ls ih =>
    obtain ⟨D, hD, hrest⟩ := Option.bind_eq_some_iff.mp hr
    obtain ⟨hl, hls⟩ := hls D hD
    obtain ⟨w₁, hw₁, hg⟩ := next_grows h hl hD hw
    obtain ⟨w₂, hw₂, hg'⟩ := ih (h.next hl.1 hD) hls hrest hw₁
    exact ⟨w₂, hw₂, hg.trans hg'⟩

theorem Sane.fresh (h : C.Sane) (hw : C.nodes n = some w) {x : Member}
    (hx : w.members.members m = some x) (newStatus : Option Status)
    (newMetadata : Option Metadata) (env : Env) (hs : ∀ s ∈ newStatus, s.real) :
    ∃ M' x', w.members.update x newStatus newMetadata env = .ok M' ∧ M'.members m = some x' ∧
      (x' ≠ x → ∀ k y, w.members.members k = some y → y.clock < x'.clock) := by
  have hwf := h.wf n w hw
  obtain ⟨M', hM', -, -, hmem⟩ := @Worker.update_ok w env hwf m x hx newStatus newMetadata hs
  refine ⟨M', _, hM', by rw [hmem, Function.update_self], fun hne k y hy => ?_⟩
  rw [Member.applied_none_clock (hwf.settled m x hx).below hne]
  exact (hwf.settled k y hy).below

/-! ## Acknowledged clocks are bounded -/

theorem Initial.known {heard : Name → Name → Option Int} (h : Initial C) {a b : Name}
    {k : Clock} : (C.board heard).known a b m ≠ some k := by
  intro hk
  obtain ⟨w, c, hw, hc, -⟩ := board_known.mp hk
  obtain ⟨config, env, -, rfl⟩ := h.nodes a w hw
  obtain ⟨M, hM, -, -, -, hlocal, hother, -⟩ := Members.init_ok config env
  obtain ⟨t, ht, hc⟩ := Members.knownOf_eq_some.mp hc
  rw [Worker.init, hM, Py.after_ok] at ht
  by_cases hb : b = config.localName
  · subst hb
    rw [hlocal] at ht
    cases ht; cases hc
  · rw [hother b t hb ht] at hc
    cases hc

theorem Initial.bounded (h : Initial C) (heard : Name → Name → Option Int) :
    Rumor.Bounded (C.board heard) where
  gossips := by
    rintro _ ⟨d, g, hg, -⟩
    rw [h.net] at hg; cases hg
  receipts := by
    rintro _ ⟨d, a, ha, -⟩
    rw [h.net] at ha; cases ha
  known := fun _ _ _ _ hk => absurd hk h.known

theorem reach_bounded (h : Reach next Initial Steady C) :
    C.Sane ∧ ∀ heard, Rumor.Bounded (C.board heard) := by
  refine h.invariant (P := fun C => C.Sane ∧ ∀ heard, Rumor.Bounded (C.board heard))
    (fun C hC => ⟨hC.sane, hC.bounded⟩) fun C l C' _ hC hl hs => ?_
  obtain ⟨hsane, hbounded⟩ := hC
  refine ⟨hsane.next hl.1 hs, fun heard => ?_⟩
  obtain ⟨hg, hr, hk⟩ := (hbounded heard).step (simulates hsane hl.1 hl.2 hs heard)
    (monotone hsane hl.1 hs heard)
  exact ⟨hg, hr, hk⟩

theorem reach_clocks (h : Reach next Initial Steady C) (hw : C.nodes n = some w) :
    (∀ a, (n, .gossipAck a) ∈ C.net → ∃ x, w.members.members a.name = some x ∧ a.clock ≤ x.clock) ∧
      ∀ b t, w.members.members b = some t → ∀ m c, t.knownClocks m = some c →
        ∃ x, w.members.members m = some x ∧ c ≤ x.clock := by
  have hbounded := (reach_bounded h).2 fun _ _ => none
  have hclock : ∀ m, (C.board fun _ _ => none).clock n m = w.members.clockOf m :=
    fun m => clockOf_some hw
  refine ⟨fun a ha => ?_, fun b t ht m c hc => ?_⟩
  · have hle := hbounded.receipts _ ⟨n, a, ha, rfl⟩
    exact Members.le_clockOf.mp (hclock a.name ▸ hle)
  · have hle := hbounded.known n b m c
      (board_known.mpr ⟨w, c, hw, Members.knownOf_eq_some.mpr ⟨t, ht, hc⟩, rfl⟩)
    exact Members.le_clockOf.mp (hclock m ▸ hle)

/-- **Clock discipline.** -/
theorem clock_discipline (C : Cluster) (h : Reach next Initial Steady C) : C.Disciplined := by
  obtain ⟨hsane, hbounded⟩ := reach_bounded h
  have hacks : ∀ n a, (n, .gossipAck a) ∈ C.net → ∀ w, C.nodes n = some w →
      ∃ x, w.members.members a.name = some x ∧ a.clock ≤ x.clock := by
    intro n a ha w hw
    have hle := (hbounded fun _ _ => none).receipts _ ⟨n, a, ha, rfl⟩
    have hclock : (C.board fun _ _ => none).clock n a.name = w.members.clockOf a.name :=
      clockOf_some hw
    exact Members.le_clockOf.mp (hclock ▸ hle)
  refine ⟨?_, ?_, ?_, ?_, hacks, ?_⟩
  · intro n w hw m x hx
    exact ((hsane.wf n w hw).settled m x hx).below
  · intro ls C' hls hr n w hw m x hx
    obtain ⟨w', hw', hg⟩ := run_grows hsane hls hr hw
    obtain ⟨x', hx', hle, -⟩ := hg.entry m x hx
    exact ⟨w', x', hw', hx', hle⟩
  · intro n w hw m x hx newStatus newMetadata env hs
    exact hsane.fresh hw hx newStatus newMetadata env hs
  · intro n w hw b t ht m c hc
    have hle := (hbounded fun _ _ => none).known n b m c
      (board_known.mpr ⟨w, c, hw, Members.knownOf_eq_some.mpr ⟨t, ht, hc⟩, rfl⟩)
    have hclock : (C.board fun _ _ => none).clock n m = w.members.clockOf m := clockOf_some hw
    exact Members.le_clockOf.mp (hclock ▸ hle)
  · intro n packet hp w hw env
    have hraised := @receive_failed_iff w packet env (hsane.wf n w hw) (hsane.honest n packet hp)
    refine hraised.mpr ?_
    rintro a rfl
    obtain ⟨x, hx, hle⟩ := hacks n a hp w hw
    exact le_of_lt (lt_of_le_of_lt hle ((hsane.wf n w hw).settled _ x hx).below)

/-! ## Acknowledged clocks are held -/

/-- What `b` has acknowledged to `a` about a member other than itself, `b` holds with a clock at
least as high, so it takes nothing older from a third node. -/
def AckHeld (C : Cluster) : Prop :=
  ∀ a wa b wb, C.nodes a = some wa → C.nodes b = some wb →
    ∀ t, wa.members.members b = some t → ∀ m c, m ≠ b → t.knownClocks m = some c →
      ∃ x, wb.members.members m = some x ∧ c ≤ x.clock ∧
        ∀ source clock, source.name ≠ m → clock ≤ c → x.accepts (some source) clock = false

/-- Gossip about another member is only handled if its clock is not above the one held, or it
changes the member's status or metadata. -/
def NoRepetition (C : Cluster) (l : Event × Env) : Prop :=
  match l.1 with
  | .deliver n (.gossip g) => g.name = n ∨ ∀ w ∈ C.nodes n,
    (w.members.found g.name l.2).clock < g.clock →
      (w.members.found g.name l.2).changes (some g.status) g.metadata = true
  | _ => True

instance (C : Cluster) (l : Event × Env) : Decidable (C.NoRepetition l) :=
  match l with
  | (.deliver _ (.gossip _), _) => inferInstanceAs (Decidable (_ ∨ ∀ w ∈ _, _ → _))
  | (.deliver _ (.ping _), _) | (.deliver _ (.pingReq _ _), _) | (.deliver _ (.ack _), _)
  | (.deliver _ (.gossipAck _), _) | (.act _ _, _) | (.lose _ _, _) | (.duplicate _ _, _)
  | (.restart _ _, _) => isTrue trivial

theorem stores (h : C.Sane) (hl : C.Steady l) (hno : C.NoRepetition l)
    (hs : C.next l = some C') (heard : Name → Name → Option Int) :
    Rumor.Stores (C.board heard) (C'.move l.1) := by
  intro r c d htake hne
  obtain ⟨n, g, w, src, hdeliver, rfl, hw, -, hc, -⟩ := takes h hl.1 hs htake
  rw [NoRepetition, hdeliver] at hno
  have hchanges := (hno.resolve_left hne) w hw
  have hlocal : (w.members.found g.name l.2).isLocal = false := by
    rw [← Bool.not_eq_true, (h.wf n w hw).found_isLocal, h.named n w hw]
    exact hne
  rw [hc]
  refine WithBot.coe_le_coe.mpr ?_
  by_cases hlt : (w.members.found g.name l.2).clock < g.clock
  · have hacc : (w.members.found g.name l.2).accepts (some src) g.clock = true := by
      simp [Member.accepts, hlt]
    rw [Member.applied_clock, hacc, hchanges hlt, Bool.and_self, if_pos rfl,
      if_neg (by simp [hlocal])]
    exact le_max_left _ _
  · have hset := h.found_settled hw g.name l.2
    exact le_trans (not_lt.mp hlt) (Member.le_applied_clock hset.below)

theorem Initial.held (h : Initial C) (heard : Name → Name → Option Int) :
    Rumor.Held (C.board heard) where
  receipts := by
    rintro _ ⟨d, a, ha, -⟩
    rw [h.net] at ha; cases ha
  known := fun _ _ _ _ hk => absurd hk h.known

theorem Sane.ackHeld {heard : Name → Name → Option Int} (hsane : C.Sane)
    (h : Rumor.Held (C.board heard)) : C.AckHeld := by
  intro a wa b wb ha hb t ht m c hne hc
  have hle := h.known a b m c
    (board_known.mpr ⟨wa, c, ha, Members.knownOf_eq_some.mpr ⟨t, ht, hc⟩, rfl⟩) hne
  have hclock : (C.board heard).clock b m = wb.members.clockOf m := clockOf_some hb
  obtain ⟨x, hx, hcx⟩ := Members.le_clockOf.mp (hclock ▸ hle)
  refine ⟨x, hx, hcx, fun source clock hsrc hold => ?_⟩
  have hname := (hsane.wf b wb hb).name m x hx
  have hnot : ¬ x.clock < clock := not_lt.mpr (le_trans hold hcx)
  simp [Member.accepts, hnot, hname, hsrc]

/-- **What is acknowledged is held**, in every run in which no gossip above the clock held is a
mere repetition. -/
theorem ackHeld_along (C : Cluster) (hC : Initial C) (ls : List (Event × Env))
    (hls : Along next (fun C l => C.Steady l ∧ C.NoRepetition l) C ls) :
    Always next AckHeld C ls := by
  have hP : Always next (fun C => C.Sane ∧ ∀ heard, Rumor.Held (C.board heard)) C ls := by
    refine always_of_along ⟨hC.sane, hC.held⟩ hls fun C l C' hD hl hs => ?_
    obtain ⟨hsane, hheld⟩ := hD
    refine ⟨hsane.next hl.1.1 hs, fun heard => ?_⟩
    obtain ⟨hr, hk⟩ := (hheld heard).step (simulates hsane hl.1.1 hl.1.2 hs heard)
      (monotone hsane hl.1.1 hs heard) (stores hsane hl.1 hl.2 hs heard)
    exact ⟨hr, hk⟩
  exact hP.mono fun C hC => hC.1.ackHeld (hC.2 fun _ _ => none)

open Worker (still)

def told : List (Event × Env) :=
  [(.act "a" (.disseminate "b"), still),
    (.deliver "b" (.gossip ⟨⟨"a", []⟩, "a", 1, .online, some ∅⟩), still),
    (.deliver "a" (.gossipAck ⟨⟨"b", []⟩, "a", 1⟩), still)]

/-- Then `a` changes its metadata and changes them back, before it tells `b` again. -/
def repeated : List (Event × Env) :=
  told ++
    [(.act "a" (.update "a" none (some (colour 1))), still),
      (.act "a" (.update "a" none (some ∅)), still),
      (.act "a" (.disseminate "b"), still),
      (.deliver "b" (.gossip ⟨⟨"a", []⟩, "a", 3, .online, some ∅⟩), still),
      (.deliver "a" (.gossipAck ⟨⟨"b", []⟩, "a", 3⟩), still)]

theorem clock_discipline_told : ∃ C, run next pair told = some C ∧ C.Disciplined := by
  have hrun : (run next pair told).isSome = true := by decide +kernel
  have hsteady : Along next Steady pair told := by decide +kernel
  obtain ⟨C, hC⟩ := Option.isSome_iff_exists.mp hrun
  exact ⟨C, hC, clock_discipline C ((Reach.init pair_initial).run hsteady hC)⟩

theorem ackHeld_along_told : Always next AckHeld pair told :=
  ackHeld_along pair pair_initial told (by decide +kernel)

/-- `b` has acknowledged clock 3 for `a`, and holds clock 1. -/
theorem ackHeld_fails : ¬ ∀ C, Initial C → ∀ ls, Along next Steady C ls →
    Always next AckHeld C ls := by
  intro h
  have hrun : (run next pair repeated).bind (fun C => (C.nodes "a").bind fun wa =>
      (wa.members.members "b").bind fun t => (C.nodes "b").bind fun wb =>
        (wb.members.members "a").map fun x => (t.knownClocks "a", x.clock)) =
      some (some 3, 1) := by decide +kernel
  obtain ⟨C, hC, hrun⟩ := Option.bind_eq_some_iff.mp hrun
  obtain ⟨wa, ha, hrun⟩ := Option.bind_eq_some_iff.mp hrun
  obtain ⟨t, ht, hrun⟩ := Option.bind_eq_some_iff.mp hrun
  obtain ⟨wb, hb, hrun⟩ := Option.bind_eq_some_iff.mp hrun
  obtain ⟨x, hx, heq⟩ := Option.map_eq_some_iff.mp hrun
  obtain ⟨hknown, hclock⟩ := Prod.mk.inj heq
  have hheld := (h pair pair_initial repeated (by decide +kernel)).last hC
  obtain ⟨x', hx', hle, -⟩ := hheld "a" wa "b" wb ha hb t ht "a" 3 (by decide) hknown
  cases hx.symm.trans hx'
  omega

end Cluster

end Swim
