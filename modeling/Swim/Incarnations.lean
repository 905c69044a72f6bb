import Swim.Calls
import Swim.Suspicion

/-!
# Swim.Incarnations

The acknowledgements a node has recorded from a peer belong to the incarnation of the peer that the
node knows, whatever packets arrive, in any order.

* `Members.Traces` — every entry has the validity and the acknowledgements it had, or none.
* `Worker.step_ordered` — a step, with any packet, keeps the table ordered.
* `Worker.step_acked` — what a step can do to an acknowledgement: keep it with the validity, or
  record the one it handles.
* `incarnations` — over whole runs; and a packet that shows a new incarnation makes the node start
  over with everything it knows.
-/

namespace Swim

open Transition

namespace Members

variable {M M' M'' : Members} {n : Name} {m : Member} {validity : Option Bytes} {env : Env}

/-- No entry has an acknowledgement it did not have under the same validity. -/
def Traces (M M' : Members) : Prop :=
  ∀ p t', M'.members p = some t' →
    (∃ t, M.members p = some t ∧ t'.isLocal = t.isLocal ∧ t'.validity = t.validity ∧
      t'.knownClocks = t.knownClocks) ∨ t'.knownClocks = fun _ => none

/-- A non-local peer of the given validity has acknowledged the given clock of a member. -/
def Acked (M : Members) (p : Name) (validity : Bytes) (k : Name) (c : Int) : Prop :=
  ∃ t, M.members p = some t ∧ t.isLocal = false ∧ t.validity = validity ∧ t.knownClocks k = some c

theorem Traces.trans (h : M.Traces M') (h' : M'.Traces M'') : M.Traces M'' := by
  intro p t'' ht''
  obtain ⟨t', ht', hl', hv', hk'⟩ | hnone := h' p t'' ht''
  · obtain ⟨t, ht, hl, hv, hk⟩ | hnone := h p t' ht'
    · exact Or.inl ⟨t, ht, hl'.trans hl, hv'.trans hv, hk'.trans hk⟩
    · exact Or.inr (hk'.trans hnone)
  · exact Or.inr hnone

theorem Keyed.traces_get (h : M.Keyed) : M.Traces (M.get n validity env).1 := by
  intro p t' ht'
  by_cases hp : p = n
  · subst hp
    rw [h.get_self] at ht'
    cases ht'
    obtain hg | ⟨v, -, -, hg⟩ := got_cases M p validity env
    · rw [hg]
      cases hm : M.members p with
      | some m => rw [found_of_some hm]; exact Or.inl ⟨m, rfl, rfl, rfl, rfl⟩
      | none => rw [found_of_none hm]; exact Or.inr rfl
    · rw [hg]; exact Or.inr rfl
  · rw [h.get_of_ne hp] at ht'
    exact Or.inl ⟨t', ht', rfl, rfl, rfl⟩

theorem traces_update (hm : M.members m.name = some m) (source : Option Member) (clock : Int)
    (status : Option Status) (metadata : Option Metadata) (env : Env) :
    M.Traces (M._update m source clock status metadata env).after := by
  obtain ⟨m', hkept, hmem⟩ := _update_members M m source clock status metadata env
  intro p t' ht'
  rw [hmem] at ht'
  by_cases hp : p = m.name
  · subst hp
    rw [Function.update_self] at ht'
    cases ht'
    exact Or.inl ⟨m, hm, hkept.isLocal, hkept.validity, hkept.knownClocks⟩
  · rw [Function.update_of_ne hp] at ht'
    exact Or.inl ⟨t', ht', rfl, rfl, rfl⟩

theorem Traces.acked {p k : Name} {v : Bytes} {c : Int} (h : M.Traces M')
    (hacked : M'.Acked p v k c) : M.Acked p v k c := by
  obtain ⟨t', ht', hlocal, hv', hc⟩ := hacked
  obtain ⟨t, ht, hl, hv, hk⟩ | hnone := h p t' ht'
  · exact ⟨t, ht, hl.symm.trans hlocal, hv.symm.trans hv', by rw [← hk]; exact hc⟩
  · rw [hnone] at hc; cases hc

theorem got_validity {v : Bytes} (h : (M.got n (some v) env).isLocal = false) :
    (M.got n (some v) env).validity = v := by
  rw [got.eq_def] at h ⊢
  dsimp only at h ⊢
  split
  · rfl
  · rename_i hno
    rw [if_neg hno] at h
    by_contra hne
    exact hno ⟨h, hne⟩

/-! ## Handling any packet -/

section Handled

variable {packet : Packet}

theorem Ordered.looked (h : M.Ordered) (name : Name) : (M.looked packet name env).1.Ordered :=
  (h.get _ _ _).get _ _ _

theorem Ordered.handled (h : M.Ordered) : (M.handled packet env).after.Ordered := by
  cases packet with
  | ping | ack => exact h.get _ _ _
  | pingReq => exact h.looked _
  | gossip g =>
    obtain ⟨-, -, hm, hname, -⟩ := @Keyed.looked M (.gossip g) g.name env h.keyed
    have hself : (M.looked (.gossip g) g.name env).1.members
        (M.looked (.gossip g) g.name env).2.name =
          some (M.looked (.gossip g) g.name env).2 := by rw [hname]; exact hm
    exact (h.looked g.name)._update hself _ _ _ _ _
  | gossipAck a =>
    obtain ⟨-, -, -, -, hkeep⟩ := @Keyed.looked M (.gossipAck a) a.name env h.keyed
    rw [← (@Keyed.met M (.gossipAck a) env h.keyed).2.2.2] at hkeep
    exact (h.looked a.name).ackGossip hkeep

theorem Keyed.traces_looked (h : M.Keyed) (name : Name) :
    M.Traces (M.looked packet name env).1 := h.traces_get.trans h.get.traces_get

theorem Keyed.traces_handled (h : M.Keyed) (hp : ∀ a, packet ≠ .gossipAck a) :
    M.Traces (M.handled packet env).after := by
  cases packet with
  | ping | ack => exact h.traces_get
  | pingReq => exact h.traces_looked _
  | gossip g =>
    obtain ⟨-, -, hm, hname, -⟩ := @Keyed.looked M (.gossip g) g.name env h
    have hself : (M.looked (.gossip g) g.name env).1.members
        (M.looked (.gossip g) g.name env).2.name =
          some (M.looked (.gossip g) g.name env).2 := by rw [hname]; exact hm
    exact (h.traces_looked g.name).trans (traces_update hself _ _ _ _ _)
  | gossipAck a => exact absurd rfl (hp a)

theorem Keyed.handled_acked (h : M.Keyed) {p k : Name} {v : Bytes} {c : Int}
    (hacked : (M.handled packet env).after.Acked p v k c) :
    M.Acked p v k c ∨ packet = .gossipAck ⟨⟨p, v⟩, k, c⟩ := by
  by_cases hp : ∀ a, packet ≠ .gossipAck a
  · exact Or.inl ((h.traces_handled hp).acked hacked)
  obtain ⟨a, rfl⟩ := not_forall_not.mp hp
  obtain ⟨-, -, -, hname, hkeep⟩ := @Keyed.looked M (.gossipAck a) a.name env h
  have htr := @Keyed.traces_looked M env (.gossipAck a) h a.name
  have hsrc := (@Keyed.met M (.gossipAck a) env h).2.2.2
  have hunfold : M.handled (.gossipAck a) env =
      (M.looked (.gossipAck a) a.name env).1.ackGossip
        (M.looked (.gossipAck a) a.name env).2 (M.met (.gossipAck a) env).2 a.clock := rfl
  rw [hunfold] at hacked
  by_cases hle : a.clock ≤ (M.looked (.gossipAck a) a.name env).1.nextClock
  · rw [ackGossip_ok hle, Py.after_ok] at hacked
    obtain ⟨t', ht', hl, hv, hc⟩ := hacked
    rw [put_acked_members, hname, hsrc] at ht'
    by_cases hps : p = (Packet.gossipAck a).source.name
    · subst hps
      rw [Function.update_self] at ht'
      cases ht'
      by_cases hk : k = a.name
      · subst hk
        -- the acknowledgement that is handled, from the incarnation `get` has just recorded
        have hclock : some a.clock = some c :=
          (Function.update_self a.name _ (M.met (.gossipAck a) env).2.knownClocks).symm.trans hc
        cases hclock
        have hvalidity : (M.met (.gossipAck a) env).2.validity = a.source.validity := by
          rw [Members.met, get_snd] at hl ⊢
          exact got_validity hl
        refine Or.inr ?_
        rw [← hv]
        show Packet.gossipAck a =
          .gossipAck ⟨⟨a.source.name, (M.met (.gossipAck a) env).2.validity⟩, a.name, a.clock⟩
        rw [hvalidity]
      · have hc' : (M.met (.gossipAck a) env).2.knownClocks k = some c := by
          rw [← hc]; exact (Function.update_of_ne hk _ _).symm
        exact Or.inl (htr.acked ⟨_, hkeep, hl, hv, hc'⟩)
    · rw [Function.update_of_ne hps] at ht'
      exact Or.inl (htr.acked ⟨t', ht', hl, hv, hc⟩)
  · rw [ackGossip_error hle] at hacked
    exact Or.inl (htr.acked hacked)

end Handled

end Members

namespace Worker

variable {w w' : Worker} {action : Action} {env : Env}

theorem step_ordered (h : w.members.Ordered) (hs : w.step action env = some w') :
    w'.members.Ordered := by
  obtain ⟨packet, -, hM⟩ | ⟨name, status, metadata, m, -, hm, hM⟩ | ⟨-, -, hM⟩ :=
    step_members h.keyed hs
  · rw [hM]; exact h.handled
  · rw [hM]; exact h._update (h.self hm) _ _ _ _ _
  · rw [hM]; exact h

theorem run_ordered {config : Config} {ls : List (Action × Env)}
    (h : run next (init config env) ls = some w) : w.members.Ordered :=
  (always_of_along (P := fun w : Worker => w.members.Ordered)
    (Members.reachable_init config env).ordered (along_true _ _)
    fun _ _ _ h _ hs => step_ordered h hs).last h

/-- What a step can do to an acknowledgement: keep it, or record the one it handles. -/
theorem step_acked (h : w.members.Keyed) (hs : w.step action env = some w') {p k : Name}
    {v : Bytes} {c : Int} (hacked : w'.members.Acked p v k c) :
    w.members.Acked p v k c ∨ action = .receive (.gossipAck ⟨⟨p, v⟩, k, c⟩) := by
  obtain ⟨packet, rfl, hM⟩ | ⟨name, status, metadata, m, -, hm, hM⟩ | ⟨-, -, hM⟩ :=
    step_members h hs
  · rw [hM] at hacked
    exact (h.handled_acked hacked).imp_right fun heq => by rw [heq]
  · rw [hM] at hacked
    have hself : w.members.members m.name = some m := by rw [h.name _ _ hm]; exact hm
    exact Or.inl ((Members.traces_update hself none w.members.nextClock status metadata env).acked
      hacked)
  · rw [hM] at hacked
    exact Or.inl hacked

theorem init_not_acked (config : Config) (env : Env) (p : Name) (v : Bytes) (k : Name) (c : Int) :
    ¬ (init config env).members.Acked p v k c := by
  rintro ⟨t, ht, hl, -, hc⟩
  obtain ⟨M, hM, -, -, -, hlocal, hnew, -⟩ := Members.init_ok config env
  rw [init, hM, Py.after_ok] at ht
  by_cases hp : p = config.localName
  · subst hp
    cases hlocal.symm.trans ht
    cases hl
  · rw [hnew p t hp ht] at hc
    cases hc

/-- **Acknowledgements of an incarnation.** Every acknowledgement recorded from a non-local peer was
received from the incarnation the node knows, and the node has known that incarnation ever since.
A packet other than an acknowledgement that shows another incarnation of a peer leaves the peer in
need of everything the node knows. -/
theorem incarnations (config : Config) (env₀ : Env) (ls : List (Action × Env)) (w : Worker)
    (h : run next (init config env₀) ls = some w) (p : Name) :
    (∀ t, w.members.members p = some t → t.isLocal = false →
      ∀ k c, t.knownClocks k = some c → ∃ before l after, ls = before ++ l :: after ∧
        l.1 = .receive (.gossipAck ⟨⟨p, t.validity⟩, k, c⟩) ∧
        ∀ mid, mid <+: after → ∃ u x, run next (init config env₀) (before ++ l :: mid) = some u ∧
          u.members.members p = some x ∧ x.validity = t.validity) ∧
    ∀ packet env w', (∀ a, packet ≠ .gossipAck a) → w.step (.receive packet) env = some w' →
      ∀ t', w'.members.members p = some t' →
        (∀ t, w.members.members p = some t → t.validity ≠ t'.validity) →
        ∀ x, x ∈ w'.members.getGossip t' ↔ w'.members.members x.name = some x ∧
          (x.isLocal = true ∨ x.metadataDict.isSome = true) := by
  refine ⟨fun t ht hl k c hc => ?_, fun packet env w' hp hs t' ht' hchanged x => ?_⟩
  · obtain ⟨before, l, after, u, hls, hu, hl, hall⟩ :=
      run_since (P := fun w : Worker => w.members.Acked p t.validity k c)
        (G := fun _ l => l.1 = .receive (.gossipAck ⟨⟨p, t.validity⟩, k, c⟩))
        (init_not_acked config env₀ p t.validity k c)
        (fun ls l u u' hr hs hacked => step_acked (run_ordered hr).keyed hs hacked) h
        ⟨t, ht, hl, rfl, hc⟩
    refine ⟨before, l, after, hls, hl, fun mid hmid => ?_⟩
    obtain ⟨u', hu', x, hx, -, hv, -⟩ := hall mid hmid
    exact ⟨u', x, hu', hx, hv⟩
  · have ho := run_ordered h
    have ho' := step_ordered ho hs
    have hnone : t'.knownClocks = fun _ => none := by
      obtain ⟨packet', hpacket, hM⟩ | ⟨_, _, _, _, hedit, -⟩ | ⟨-, hno, -⟩ :=
        step_members ho.keyed hs
      · cases hpacket
        rw [hM] at ht'
        obtain ⟨t, ht, -, hv, -⟩ | hnone := ho.keyed.traces_handled hp p t' ht'
        · exact absurd hv.symm (hchanged t ht)
        · exact hnone
      · cases hedit
      · exact absurd rfl (hno packet)
    rw [ho'.keyed.mem_getGossip]
    refine and_congr_right fun hx => ?_
    have hneed : t'.needsGossip x = true := by
      have hpos := (ho'.tidy _ _ hx).nonneg
      rw [Member.needsGossip, hnone, decide_eq_true_eq, Option.getD_none]
      omega
    rw [hneed]
    exact ⟨fun hall => hall.2, fun hall => ⟨rfl, hall⟩⟩

/-- `b` acknowledges gossip about `a`; a packet of a new incarnation of `b` follows. -/
def restarted : List (Action × Env) :=
  [(.receive (.gossipAck ⟨⟨"b", [1]⟩, "a", 1⟩), still), (.receive (.ping ⟨"b", [2]⟩), still)]

theorem incarnations_restarted : ∃ w t w' t',
    run next (init nodeA still) (restarted.take 1) = some w ∧ w.members.members "b" = some t ∧
    (∃ before l after, restarted.take 1 = before ++ l :: after ∧
      l.1 = .receive (.gossipAck ⟨⟨"b", t.validity⟩, "a", 1⟩)) ∧
    w.step (.receive (.ping ⟨"b", [2]⟩)) still = some w' ∧ w'.members.members "b" = some t' ∧
    ∀ x, x ∈ w'.members.getGossip t' ↔ w'.members.members x.name = some x ∧
      (x.isLocal = true ∨ x.metadataDict.isSome = true) := by
  have hrun : ((run next (init nodeA still) (restarted.take 1)).bind fun w =>
      (w.members.members "b").map fun t => (t.isLocal, t.validity, t.knownClocks "a")) =
        some (false, [1], some 1) := by decide +kernel
  have hrun' : ((run next (init nodeA still) restarted).bind fun w =>
      (w.members.members "b").map Member.validity) = some [2] := by decide +kernel
  obtain ⟨w, hw, hrun⟩ := Option.bind_eq_some_iff.mp hrun
  obtain ⟨t, ht, heq⟩ := Option.map_eq_some_iff.mp hrun
  obtain ⟨hl, hv, hk⟩ : t.isLocal = false ∧ t.validity = [1] ∧ t.knownClocks "a" = some 1 := by
    simpa using heq
  obtain ⟨w', hw', hrun'⟩ := Option.bind_eq_some_iff.mp hrun'
  obtain ⟨t', ht', hv'⟩ := Option.map_eq_some_iff.mp hrun'
  have hstep : w.step (.receive (.ping ⟨"b", [2]⟩)) still = some w' := by
    have happend : run next (init nodeA still) (restarted.take 1 ++
        [(.receive (.ping ⟨"b", [2]⟩), still)]) = some w' := hw'
    obtain ⟨u, hu, hlast⟩ := run_concat happend
    cases hw.symm.trans hu
    exact hlast
  obtain ⟨hacked, hoffered⟩ := incarnations nodeA still _ w hw "b"
  obtain ⟨before, l, after, hls, hl, -⟩ := hacked t ht hl "a" 1 hk
  refine ⟨w, t, w', t', hw, ht, ⟨before, l, after, hls, hl⟩, hstep, ht', ?_⟩
  refine hoffered _ still w' (by rintro a ⟨⟩) hstep t' ht' fun t₀ ht₀ => ?_
  cases ht.symm.trans ht₀
  rw [hv, hv']
  decide

end Worker

end Swim
