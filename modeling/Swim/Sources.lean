import Swim.Clocks
import Swim.Incarnations

/-!
# Swim.Sources

Whom packets come from, in a cluster whose nodes never restart.

* `Worker.step_source` — a step sends packets of its own, and forwards acknowledgements.
* `Cluster.Authentic` — a packet in flight that names a node as its source has the validity of that
  node, and so has whatever was acknowledged.
* `Members.Positive` — metadata are known only of members with a positive clock.
* `reach_authentic`, `reach_alive`, `reach_positive` — this holds in every reachable state.
-/

namespace Swim

open Transition

theorem Member.applied_positive {m : Member} {source : Option Member} {clock nextClock : Int}
    {status : Option Status} {metadata : Option Metadata} {now : Time} (hd : m.DictOk)
    (hb : m.clock < nextClock) (hpos : m.metadataDict.isSome = true → 0 < m.clock)
    (hclock : metadata.isSome = true → 0 < clock)
    (hk : (m.applied source clock nextClock status metadata now).metadataDict.isSome = true) :
    0 < (m.applied source clock nextClock status metadata now).clock := by
  by_cases hm : m.metadataDict.isSome = true
  · exact lt_of_lt_of_le (hpos hm) (le_applied_clock hb)
  · have hch : (m.accepts source clock && m.changes status metadata) = true := by
      by_contra hno
      rw [applied, if_neg hno] at hk
      exact hm hk
    have hig : ¬ (m.isLocal && source.isSome) = true := by
      intro hig
      rw [applied_metadataDict_ignored hig] at hk
      exact hm hk
    rw [applied_metadataDict hd (Bool.eq_false_iff.mpr hig) (Bool.and_eq_true_iff.mp hch).1,
      Option.not_isSome_iff_eq_none.mp hm, Option.or_none] at hk
    rw [applied_clock, if_pos hch, if_neg hig]
    exact lt_max_of_lt_left (hclock hk)

def Members.Positive (M : Members) : Prop :=
  ∀ n m, M.members n = some m → m.metadataDict.isSome = true → 0 < m.clock

theorem Members.Shift.positive {M M' : Members} {written : Option Name}
    {learned : Option (Name × Name × Int)} (h : M.Shift M' written learned) (hpos : M.Positive)
    {n : Name} {x : Member} (hn : written ≠ some n) (hx : M'.members n = some x)
    (hk : x.metadataDict.isSome = true) : 0 < x.clock := by
  have hdata := h.data n hn
  have hclock := h.clock n hn
  cases hm : M.members n with
  | none =>
    rw [dataOf_some hx, dataOf_none hm] at hdata
    rw [hdata] at hk; cases hk
  | some m =>
    rw [dataOf_some hx, dataOf_some hm] at hdata
    rw [clockOf_some hx, clockOf_some hm] at hclock
    rw [hdata] at hk
    exact lt_of_lt_of_le (hpos n m hm hk) (WithBot.coe_le_coe.mp hclock)

namespace Worker

variable {w w' : Worker} {action : Action} {env : Env} {d : Name} {p : Packet}

theorem step_localSource (h : w.members.Wf) (ha : action.Honest)
    (hs : w.step action env = some w') : w'.localMember.source = w.localMember.source := by
  obtain ⟨packet, rfl, -, rfl⟩ | ⟨name, status, metadata, m, M', -, hr, hm, -, -, hM', rfl⟩ |
    ⟨-, -, rfl⟩ := step_cases h ha hs
  · rw [localMember, receive_members h.toKeyed]
    exact h.handled_localSource ha
  · obtain ⟨M'', hM'', -, hg, hmem⟩ := @update_ok w env h name m hm status metadata hr
    cases hM'.symm.trans hM''
    exact Members.localMember_source_write hm hmem hg.localName (by simp [Member.source])
  · rfl

/-- The source of a packet as `get` finds it: a remote one as the packet says. -/
theorem met_source (h : w.members.Keyed) (packet : Packet) :
    (w.members.met packet env).2.source = w.localMember.source ∨
      packet.source.name ≠ w.members.localName ∧
        (w.members.met packet env).2.source = packet.source := by
  have hname := (@Members.Keyed.met w.members packet env h).2.2.2
  by_cases hn : packet.source.name = w.members.localName
  · refine Or.inl ?_
    rw [Members.met, Members.get_snd, hn, h.got_local]
    rfl
  · refine Or.inr ⟨hn, ?_⟩
    have hremote : (w.members.met packet env).2.isLocal = false := by
      have hmet := (@Members.Keyed.met w.members packet env h)
      rw [← Bool.not_eq_true, hmet.1.isLocal _ _ hmet.2.2.1, hmet.2.1.localName]
      exact hn
    have hvalidity : (w.members.met packet env).2.validity = packet.source.validity := by
      rw [Members.met, Members.get_snd] at hremote ⊢
      exact Members.got_validity hremote
    rw [Member.source, hname, hvalidity]

/-- **Whom the packets a step sends come from.** -/
theorem step_source (h : w.members.Wf) (ha : action.Honest) (hq : w.sendQueue = [])
    (hs : w.step action env = some w') (hp : (d, p) ∈ w'.sendQueue) :
    p.source = w.localMember.source ∨
      ∃ packet, action = .receive packet ∧ packet.source.name ≠ w.members.localName ∧
        p.source = packet.source := by
  obtain ⟨packet, rfl, -, rfl⟩ | ⟨_, _, _, _, _, -, -, -, -, -, -, rfl⟩ | ⟨he, hne, rfl⟩ :=
    step_cases h ha hs
  · rw [receive_sendQueue h ha, hq, List.nil_append, List.mem_append] at hp
    obtain hp | hp := hp
    · obtain ⟨target, -, heq⟩ := List.mem_map.mp hp
      cases heq
      exact (@met_source w env h.toKeyed packet).imp_right fun hsrc => ⟨packet, rfl, hsrc⟩
    · cases packet with
      | ping | pingReq | gossip => cases List.mem_singleton.mp hp; exact Or.inl rfl
      | ack | gossipAck => cases hp
  · rw [hq] at hp; cases hp
  · rw [hq, List.nil_append] at hp
    refine Or.inl ?_
    cases action with
    | ping target => cases List.mem_singleton.mp hp; rfl
    | pingReq target indirects =>
      obtain ⟨indirect, -, heq⟩ := List.mem_map.mp hp
      cases heq
      rfl
    | disseminate target =>
      cases ht : w.peer target with
      | none => rw [outgoing, ht] at hp; cases hp
      | some t =>
        rw [outgoing, ht] at hp
        obtain ⟨m, -, heq⟩ := List.mem_map.mp hp
        cases heq
        rfl
    | receive packet => exact absurd rfl (hne packet)
    | verdict | expire | update => cases he

theorem step_positive (h : w.members.Wf) (ha : action.Honest) (hs : w.step action env = some w')
    (hpos : w.members.Positive)
    (hg : ∀ g, action = .receive (.gossip g) → g.metadata.isSome = true → 0 < g.clock) :
    w'.members.Positive := by
  intro n x hx hk
  have hshift := step_shift h ha hs
  cases hc : action.change w.members.nextClock with
  | none => exact hshift.positive hpos (by rw [hc]; exact nofun) hx hk
  | some change =>
    obtain ⟨k, source, clock, status, metadata⟩ := change
    by_cases hkn : k = n
    · subst hkn
      obtain ⟨src, m', -, hm', hsame⟩ := step_applied h ha hs hc
      cases hx.symm.trans hm'
      have hset : (w.members.found k env).Settled w.members.nextClock := h.found_settled
      rw [hsame.metadataDict] at hk
      rw [hsame.clock]
      refine Member.applied_positive hset.dict hset.below ?_ (fun hμ => ?_) hk
      · cases hm : w.members.members k with
        | some m => rw [Members.found_of_some hm]; exact hpos k m hm
        | none => rw [Members.found_of_none hm]; exact fun hno => absurd hno Bool.false_ne_true
      · cases source with
        | none =>
          rw [Action.change_none hc]
          exact h.nextClock_pos
        | some name =>
          cases action with
          | receive packet =>
            cases packet with
            | gossip g => cases hc; exact hg g rfl hμ
            | ping | pingReq | ack | gossipAck => cases hc
          | ping | pingReq | disseminate | verdict | expire | update => cases hc
    · exact hshift.positive hpos (by rw [hc]; exact fun heq => hkn (Option.some.inj heq)) hx hk

end Worker

namespace Cluster

variable {C C' : Cluster} {l : Event × Env}

/-- Packets in flight, and acknowledgements held, have the validity of the node they name. -/
structure Authentic (C : Cluster) : Prop where
  sent : ∀ d p w, (d, p) ∈ C.net → C.nodes p.source.name = some w →
    p.source = w.localMember.source
  acked : ∀ n w b v k c, C.nodes n = some w → w.members.Acked b v k c →
    ∀ x, C.nodes b = some x → v = x.localMember.validity

theorem Initial.authentic (h : Initial C) : C.Authentic where
  sent := by
    intro d p w hp
    rw [h.net] at hp; cases hp
  acked := by
    intro n w b v k c hw hacked
    obtain ⟨config, env, -, rfl⟩ := h.nodes n w hw
    exact absurd hacked (Worker.init_not_acked config env b v k c)

theorem Authentic.next (h : C.Authentic) (hsane : C.Sane) (hl : C.Steady l)
    (hs : C.next l = some C') : C'.Authentic := by
  obtain ⟨n, action, w, w', net, hstep, hw, hw', hnet, hmem, rfl⟩ | ⟨-, hnodes, hnet⟩ :=
    steady_cases hl.2 hs
  · have hwf := hsane.wf n w hw
    have ha := hsane.action hl.1 hstep hmem
    have hsource := Worker.step_localSource hwf ha hw'
    -- the nodes keep their sources
    have hback : ∀ k x, (({ C with net := net } : Cluster).put n w').nodes k = some x →
        ∃ y, C.nodes k = some y ∧ y.localMember.source = x.localMember.source := by
      intro k x hx
      by_cases hk : k = n
      · subst hk
        rw [put_nodes_self] at hx
        cases hx
        exact ⟨w, hw, hsource.symm⟩
      · rw [put_nodes_of_ne hk] at hx
        exact ⟨x, hx, rfl⟩
    refine ⟨fun d p x hp hx => ?_, fun k x b v m c hx hacked y hy => ?_⟩
    · obtain ⟨y, hy, hsame⟩ := hback _ _ hx
      rw [← hsame]
      obtain hp | hp := List.mem_append.mp hp
      · exact h.sent d p y (hnet _ hp) hy
      · obtain hown | ⟨packet, rfl, -, hforward⟩ :=
          Worker.step_source hwf ha (hsane.drained n w hw) hw' hp
        · have hname : p.source.name = n := by
            rw [hown]
            exact hwf.localMember_name.trans (hsane.named n w hw)
          rw [hname, hw] at hy
          cases hy
          exact hown
        · rw [hforward] at hy ⊢
          exact h.sent n packet y (hmem packet rfl) hy
    · obtain ⟨z, hz, hsame⟩ := hback _ _ hy
      have hvalidity : z.localMember.validity = y.localMember.validity :=
        congrArg Source.validity hsame
      rw [← hvalidity]
      by_cases hk : k = n
      · subst hk
        rw [put_nodes_self] at hx
        cases hx
        obtain hold | rfl := Worker.step_acked hwf.toKeyed hw' hacked
        · exact h.acked k w b v m c hw hold z hz
        · exact congrArg Source.validity (h.sent k _ z (hmem _ rfl) hz)
      · rw [put_nodes_of_ne hk] at hx
        exact h.acked k x b v m c hx hacked z hz
  · refine ⟨fun d p x hp hx => ?_, fun k x b v m c hx hacked y hy => ?_⟩
    · rw [hnodes] at hx
      exact h.sent d p x (hnet _ hp) hx
    · rw [hnodes] at hx hy
      exact h.acked k x b v m c hx hacked y hy

theorem reach_authentic (h : Reach next Initial Steady C) : C.Authentic :=
  Reach.invariant (P := Authentic) h (fun _ => Initial.authentic)
    fun _ _ _ hr ih hl hs => ih.next (reach_bounded hr).1 hl hs

theorem reach_alive (h : Reach next Initial Steady C) : C.Alive := by
  refine Reach.invariant (P := Alive) h (fun C hC n w hw => ?_) fun C l C' hr ih hl hs => ?_
  · obtain ⟨config, env, -, rfl⟩ := hC.nodes n w hw
    rfl
  · refine (alive_step (reach_bounded hr).1 ih hl.1 hs).mpr fun n a hla w hw => ?_
    have hmem : (n, .gossipAck a) ∈ C.net := by
      obtain ⟨event, env⟩ := l
      obtain rfl : event = .deliver n (.gossipAck a) := hla
      by_contra hno
      simp [next, hno] at hs
    obtain ⟨x, hx, hle⟩ := (reach_clocks hr hw).1 a hmem
    exact le_of_lt (lt_of_le_of_lt hle (((reach_bounded hr).1.wf n w hw).settled _ x hx).below)

theorem reach_positive (h : Reach next Initial Steady C) :
    (∀ n w, C.nodes n = some w → w.members.Positive) ∧
      ∀ d g, (d, .gossip g) ∈ C.net → g.metadata.isSome = true → 0 < g.clock := by
  refine Reach.invariant (P := fun C => (∀ n w, C.nodes n = some w → w.members.Positive) ∧
      ∀ d g, (d, .gossip g) ∈ C.net → g.metadata.isSome = true → 0 < g.clock) h
    (fun C hC => ⟨fun n w hw k m hm hk => ?_, fun d g hg => ?_⟩)
    fun C l C' hr ⟨hnodes, hnet⟩ hl hs => ?_
  · obtain ⟨config, env, -, rfl⟩ := hC.nodes n w hw
    obtain ⟨M, hM, -, -, -, hlocal, hnew, -⟩ := Members.init_ok config env
    rw [Worker.init, hM, Py.after_ok] at hm
    by_cases hk' : k = config.localName
    · subst hk'
      cases hlocal.symm.trans hm
      exact Int.one_pos
    · rw [hnew k m hk' hm] at hk; cases hk
  · rw [hC.net] at hg; cases hg
  · have hsane := (reach_bounded hr).1
    obtain ⟨n, action, w, w', net, hstep, hw, hw', hsub, hmem, rfl⟩ | ⟨-, hsame, hsub⟩ :=
      steady_cases hl.2 hs
    · have hwf := hsane.wf n w hw
      have ha := hsane.action hl.1 hstep hmem
      refine ⟨fun k x hx => ?_, fun d g hg hk => ?_⟩
      · by_cases hk : k = n
        · subst hk
          rw [put_nodes_self] at hx
          cases hx
          have hpos := Worker.step_positive hwf ha hw' (hnodes k w hw)
            fun g hg => hnet k g (hmem _ hg)
          exact hpos
        · rw [put_nodes_of_ne hk] at hx
          exact hnodes k x hx
      · obtain hg | hg := List.mem_append.mp hg
        · exact hnet d g (hsub _ hg) hk
        · obtain hc | ⟨_, -, -, hp⟩ | ⟨m, -, hm, -, hp⟩ :=
            Worker.step_sent hwf ha (hsane.drained n w hw) hw' hg
          · cases hc
          · cases hp
          · cases hp
            exact hnodes n w hw m.name m hm hk
    · exact ⟨by rw [hsame]; exact hnodes, fun d g hg => hnet d g (hsub _ hg)⟩

end Cluster

end Swim
