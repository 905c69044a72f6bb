import Swim.Suspicion

/-!
# Swim.Cluster

Any number of workers with distinct names, and a network between them that may delay, reorder,
lose and duplicate packets. What a worker queues for sending is in flight from then on.

* `next` — one event: a step of one node, a delivery, a loss, a duplication, or the restart of a
  node under the same name with fresh state.
* `next_cases`, `steady_cases` — every event is a step of one node, a change of the network, or a
  restart.
* `Sane` — what holds of every node and every packet in flight, restarts included.
* `survives_iff` — no handler fails in exactly the runs in which every acknowledgement is below
  the counter of the node that handles it.
-/

namespace Swim

open Transition

structure Cluster where
  nodes : Name → Option Worker
  net : List (Name × Packet)

namespace Cluster

inductive Event where
  | act (n : Name) (action : Worker.Action)
  | deliver (n : Name) (packet : Packet)
  | lose (n : Name) (packet : Packet)
  | duplicate (n : Name) (packet : Packet)
  | restart (n : Name) (config : Config)

/-- Node `n` is now `w`, and what it queued is in flight. -/
def put (C : Cluster) (n : Name) (w : Worker) : Cluster where
  nodes := Function.update C.nodes n (some { w with sendQueue := [] })
  net := C.net ++ w.sendQueue

def take (C : Cluster) (n : Name) (packet : Packet) : Cluster :=
  { C with net := C.net.erase (n, packet) }

def next (C : Cluster) (l : Event × Env) : Option Cluster :=
  match l.1 with
  | .act _ (.receive _) => none
  | .act n action => (C.nodes n).bind fun w => (w.step action l.2).map (C.put n)
  | .deliver n packet =>
    if (n, packet) ∈ C.net then
      (C.nodes n).bind fun w => (w.step (.receive packet) l.2).map ((C.take n packet).put n)
    else none
  | .lose n packet => if (n, packet) ∈ C.net then some (C.take n packet) else none
  | .duplicate n packet =>
    if (n, packet) ∈ C.net then some { C with net := (n, packet) :: C.net } else none
  | .restart n config =>
    if config.localName = n then (C.nodes n).map fun _ => C.put n (.init config l.2) else none

/-- Every node has just started, and nothing is in flight. -/
structure Initial (C : Cluster) : Prop where
  nodes : ∀ n w, C.nodes n = some w → ∃ config env, config.localName = n ∧ w = .init config env
  net : C.net = []

def Event.Honest : Event → Prop
  | act _ action => action.Honest
  | _ => True

instance : DecidablePred Event.Honest
  | .act _ action => inferInstanceAs (Decidable action.Honest)
  | .deliver _ _ | .lose _ _ | .duplicate _ _ | .restart _ _ => isTrue trivial

def Event.isRestart : Event → Bool
  | restart _ _ => true
  | _ => false

def Event.step : Event → Option (Name × Worker.Action)
  | act n action => some (n, action)
  | deliver n packet => some (n, .receive packet)
  | lose _ _ | duplicate _ _ | restart _ _ => none

variable {C C' : Cluster} {l : Event × Env} {n : Name} {w w' : Worker}

@[simp] theorem put_nodes_self : (C.put n w).nodes n = some { w with sendQueue := [] } :=
  Function.update_self _ _ _

theorem put_nodes_of_ne {k : Name} (h : k ≠ n) : (C.put n w).nodes k = C.nodes k :=
  Function.update_of_ne h _ _

theorem put_eq_self (hw : C.nodes n = some w) (hq : w.sendQueue = []) : C.put n w = C := by
  have hsame : ({ w with sendQueue := [] } : Worker) = w := by rw [← hq]
  rw [put, hsame, ← hw, Function.update_eq_self, hq, List.append_nil]

theorem next_act {action : Worker.Action} {env : Env}
    (hne : ∀ packet, action ≠ .receive packet) : C.next (.act n action, env) =
      (C.nodes n).bind fun w => (w.step action env).map (C.put n) := by
  cases action with
  | receive packet => exact absurd rfl (hne packet)
  | ping | pingReq | verdict | expire | disseminate | update => rfl

theorem mem_take {packet : Packet} {x : Name × Packet} (h : x ∈ (C.take n packet).net) :
    x ∈ C.net := List.mem_of_mem_erase h

/-- **Inversion of an event.** -/
theorem next_cases (h : C.next l = some C') :
    (∃ n action w w' net, l.1.step = some (n, action) ∧ C.nodes n = some w ∧
      w.step action l.2 = some w' ∧ (∀ x ∈ net, x ∈ C.net) ∧
      (∀ packet, action = .receive packet → (n, packet) ∈ C.net) ∧
      C' = ({ C with net := net } : Cluster).put n w') ∨
    (l.1.step = none ∧ l.1.isRestart = false ∧ C'.nodes = C.nodes ∧ ∀ x ∈ C'.net, x ∈ C.net) ∨
    (∃ n config w, l.1 = .restart n config ∧ config.localName = n ∧ C.nodes n = some w ∧
      C' = C.put n (.init config l.2)) := by
  obtain ⟨event, env⟩ := l
  cases event with
  | act n action =>
    have hne : ∀ packet, action ≠ .receive packet := by
      rintro packet rfl
      cases h
    rw [next_act hne] at h
    obtain ⟨w, hw, hs⟩ := Option.bind_eq_some_iff.mp h
    obtain ⟨w', hw', rfl⟩ := Option.map_eq_some_iff.mp hs
    exact Or.inl ⟨n, action, w, w', C.net, rfl, hw, hw', fun _ hx => hx,
      fun packet hp => absurd hp (hne packet), rfl⟩
  | deliver n packet =>
    simp only [next] at h
    split at h
    · rename_i hmem
      obtain ⟨w, hw, hs⟩ := Option.bind_eq_some_iff.mp h
      obtain ⟨w', hw', rfl⟩ := Option.map_eq_some_iff.mp hs
      exact Or.inl ⟨n, _, w, w', _, rfl, hw, hw', fun _ hx => mem_take hx,
        by rintro p ⟨⟩; exact hmem, rfl⟩
    · cases h
  | lose n packet =>
    simp only [next] at h
    split at h
    · cases h
      exact Or.inr (Or.inl ⟨rfl, rfl, rfl, fun _ hx => mem_take hx⟩)
    · cases h
  | duplicate n packet =>
    simp only [next] at h
    split at h
    · rename_i hmem
      cases h
      refine Or.inr (Or.inl ⟨rfl, rfl, rfl, fun x hx => ?_⟩)
      rcases List.mem_cons.mp hx with rfl | hx
      · exact hmem
      · exact hx
    · cases h
  | restart n config =>
    simp only [next] at h
    split at h
    · rename_i hname
      obtain ⟨w, hw, rfl⟩ := Option.map_eq_some_iff.mp h
      exact Or.inr (Or.inr ⟨n, config, w, rfl, hname, hw, rfl⟩)
    · cases h

theorem steady_cases (hl : l.1.isRestart = false) (h : C.next l = some C') :
    (∃ n action w w' net, l.1.step = some (n, action) ∧ C.nodes n = some w ∧
      w.step action l.2 = some w' ∧ (∀ x ∈ net, x ∈ C.net) ∧
      (∀ packet, action = .receive packet → (n, packet) ∈ C.net) ∧
      C' = ({ C with net := net } : Cluster).put n w') ∨
    (l.1.step = none ∧ C'.nodes = C.nodes ∧ ∀ x ∈ C'.net, x ∈ C.net) := by
  obtain hstep | ⟨hstep, -, hrest⟩ | ⟨_, _, _, hrestart, -⟩ := next_cases h
  · exact Or.inl hstep
  · exact Or.inr ⟨hstep, hrest⟩
  · rw [hrestart] at hl; cases hl

end Cluster

/-! ## What a step sends -/

namespace Worker

variable {w w' : Worker} {action : Action} {env : Env} {d : Name} {p : Packet}

/-- What is queued by a step of a worker with an empty queue: packets that are no gossip, the
acknowledgement of the gossip it handled, or the gossip it disseminates. -/
theorem step_sent (h : w.members.Wf) (ha : action.Honest) (hq : w.sendQueue = [])
    (hs : w.step action env = some w') (hp : (d, p) ∈ w'.sendQueue) :
    p.chatter = true ∨
    (∃ g, action = .receive (.gossip g) ∧ d = g.source.name ∧
      p = .gossipAck (gossipReply w.localMember g)) ∨
    (∃ m, action = .disseminate d ∧ w.members.members m.name = some m ∧
      (m = w.localMember ∨ m.metadataDict.isSome = true) ∧
      p = .gossip (buildGossip w.localMember m)) := by
  obtain ⟨packet, rfl, -, rfl⟩ | ⟨_, _, _, _, _, -, -, -, -, -, -, rfl⟩ | ⟨he, hne, rfl⟩ :=
    step_cases h ha hs
  · rw [receive_sendQueue h ha, hq, List.nil_append, List.mem_append] at hp
    rcases hp with hp | hp
    · obtain ⟨target, -, heq⟩ := List.mem_map.mp hp
      cases heq
      exact Or.inl rfl
    · cases packet with
      | ping | pingReq => cases List.mem_singleton.mp hp; exact Or.inl rfl
      | ack | gossipAck => cases hp
      | gossip g =>
        cases List.mem_singleton.mp hp
        exact Or.inr (Or.inl ⟨g, rfl, rfl, rfl⟩)
  · rw [hq] at hp; cases hp
  · rw [hq, List.nil_append] at hp
    cases action with
    | ping target => cases List.mem_singleton.mp hp; exact Or.inl rfl
    | pingReq target indirects =>
      obtain ⟨indirect, -, heq⟩ := List.mem_map.mp hp
      cases heq
      exact Or.inl rfl
    | disseminate target =>
      cases ht : w.peer target with
      | none => rw [outgoing, ht] at hp; cases hp
      | some t =>
        rw [outgoing, ht] at hp
        obtain ⟨m, hm, heq⟩ := List.mem_map.mp hp
        cases heq
        obtain ⟨hmem, -, hknown⟩ := h.mem_getGossip.mp hm
        refine Or.inr (Or.inr ⟨m, ?_, hmem, hknown.imp_left (h.eq_localMember hmem), rfl⟩)
        rw [h.name _ _ (peer_eq_some.mp ht).1]
    | receive packet => exact absurd rfl (hne packet)
    | verdict | expire | update => cases he

end Worker

namespace Cluster

variable {C C' : Cluster} {l : Event × Env} {n : Name} {w w' : Worker}

/-- Tables are well formed, the nodes know their own metadata, queues are drained, and packets in
flight are honest. -/
structure Sane (C : Cluster) : Prop where
  wf : ∀ n w, C.nodes n = some w → w.members.Wf
  named : ∀ n w, C.nodes n = some w → w.members.localName = n
  told : ∀ n w, C.nodes n = some w → w.localMember.metadataDict.isSome = true
  drained : ∀ n w, C.nodes n = some w → w.sendQueue = []
  honest : ∀ n p, (n, p) ∈ C.net → p.Honest

theorem Initial.sane (h : Initial C) : C.Sane where
  wf := by
    intro n w hw
    obtain ⟨config, env, -, rfl⟩ := h.nodes n w hw
    exact Worker.init_wf config
  named := by
    intro n w hw
    obtain ⟨config, env, hname, rfl⟩ := h.nodes n w hw
    rw [Worker.init_localName, hname]
  told := by
    intro n w hw
    obtain ⟨config, env, -, rfl⟩ := h.nodes n w hw
    rw [Worker.init_localMember]; rfl
  drained := by
    intro n w hw
    obtain ⟨config, env, -, rfl⟩ := h.nodes n w hw
    rfl
  honest := by
    intro n p hp
    rw [h.net] at hp; cases hp

theorem Sane.action (h : C.Sane) (hl : l.1.Honest) {action : Worker.Action}
    (hstep : l.1.step = some (n, action))
    (hmem : ∀ packet, action = .receive packet → (n, packet) ∈ C.net) : action.Honest := by
  obtain ⟨event, env⟩ := l
  cases event with
  | act k a => cases hstep; exact hl
  | deliver k packet => cases hstep; exact h.honest _ _ (hmem packet rfl)
  | lose | duplicate | restart => cases hstep

theorem Sane.put (h : C.Sane) (hwf : w.members.Wf) (hname : w.members.localName = n)
    (htold : w.localMember.metadataDict.isSome = true)
    (hsent : ∀ d p, (d, p) ∈ w.sendQueue → p.Honest)
    {net : List (Name × Packet)} (hnet : ∀ x ∈ net, x ∈ C.net) :
    (({ C with net := net } : Cluster).put n w).Sane := by
  have hnodes : ∀ k x, (({ C with net := net } : Cluster).put n w).nodes k = some x →
      k = n ∧ x = { w with sendQueue := [] } ∨ C.nodes k = some x := by
    intro k x hx
    by_cases hk : k = n
    · subst hk
      rw [put_nodes_self] at hx
      exact Or.inl ⟨rfl, (Option.some.inj hx).symm⟩
    · rw [put_nodes_of_ne hk] at hx; exact Or.inr hx
  refine ⟨?_, ?_, ?_, ?_, ?_⟩
  · intro k x hx
    rcases hnodes k x hx with ⟨rfl, rfl⟩ | hx
    · exact hwf
    · exact h.wf k x hx
  · intro k x hx
    rcases hnodes k x hx with ⟨rfl, rfl⟩ | hx
    · exact hname
    · exact h.named k x hx
  · intro k x hx
    rcases hnodes k x hx with ⟨rfl, rfl⟩ | hx
    · exact htold
    · exact h.told k x hx
  · intro k x hx
    rcases hnodes k x hx with ⟨rfl, rfl⟩ | hx
    · rfl
    · exact h.drained k x hx
  · intro k p hp
    rcases List.mem_append.mp hp with hp | hp
    · exact h.honest k p (hnet _ hp)
    · exact hsent k p hp

theorem Sane.next (h : C.Sane) (hl : l.1.Honest) (hs : C.next l = some C') : C'.Sane := by
  obtain ⟨n, action, w, w', net, hstep, hw, hw', hnet, hmem, rfl⟩ | ⟨-, -, hnodes, hnet⟩ |
    ⟨n, config, w, -, hname, hw, rfl⟩ := next_cases hs
  · have ha := h.action hl hstep hmem
    have hwf := h.wf n w hw
    obtain ⟨hwf', hg⟩ := Worker.step_wf hwf ha hw'
    refine h.put hwf' (hg.localName.trans (h.named n w hw))
      (hg.known hwf.toKeyed (h.told n w hw)) (fun d p hp => ?_) hnet
    obtain hc | ⟨g, -, -, rfl⟩ | ⟨m, -, hm, -, rfl⟩ :=
      Worker.step_sent hwf ha (h.drained n w hw) hw' hp
    · cases p with
      | gossip => cases hc
      | ping | pingReq | ack | gossipAck => trivial
    · trivial
    · exact (hwf.settled _ _ hm).real
  · refine ⟨?_, ?_, ?_, ?_, fun k p hp => h.honest k p (hnet _ hp)⟩
    · rw [hnodes]; exact h.wf
    · rw [hnodes]; exact h.named
    · rw [hnodes]; exact h.told
    · rw [hnodes]; exact h.drained
  · refine h.put (Worker.init_wf config) ?_ ?_ (by rintro d p ⟨⟩) (fun _ hx => hx)
    · rw [Worker.init_localName, hname]
    · rw [Worker.init_localMember]; rfl

/-! ## The handlers survive -/

/-- Handling an honest packet fails only for an acknowledgement above the counter. -/
theorem receive_failed_iff {packet : Packet} {env : Env} (h : w.members.Wf) (hp : packet.Honest) :
    (w.receive packet env).failed = none ↔
      ∀ a, packet = .gossipAck a → a.clock ≤ w.members.nextClock := by
  have hchatter : packet.chatter = true → (w.receive packet env).failed = none := by
    intro hc
    obtain ⟨M', hM', -⟩ := @Members.Wf.handled_chatter w.members packet env h hc
    rw [Worker.receive_failed h.toKeyed, hM', Py.raised_ok]
  cases packet with
  | ping | pingReq | ack => exact iff_of_true (hchatter rfl) (by rintro a ⟨⟩)
  | gossip g =>
    obtain ⟨_, _, _, M', hM', -⟩ := @Members.Wf.handled_gossip w.members env h g hp
    rw [Worker.receive_failed h.toKeyed, hM', Py.raised_ok]
    exact iff_of_true rfl (by rintro a ⟨⟩)
  | gossipAck a =>
    obtain ⟨_, _, -, -, -, -, hM'⟩ := @Members.Wf.handled_gossipAck w.members env h a
    rw [Worker.receive_failed h.toKeyed, hM']
    split
    · rename_i hle
      exact iff_of_true rfl (by rintro _ ⟨⟩; exact hle)
    · rename_i hle
      exact iff_of_false (by rintro ⟨⟩) fun hall => hle (hall a rfl)

def Alive (C : Cluster) : Prop := ∀ n w, C.nodes n = some w → w.failed = none

/-- A `GossipAck` is handled only if its clock is at most the counter of its receiver. -/
def AcksBelow (C : Cluster) (l : Event × Env) : Prop :=
  ∀ n a, l.1 = .deliver n (.gossipAck a) → ∀ w, C.nodes n = some w → a.clock ≤ w.members.nextClock

theorem alive_put {net : List (Name × Packet)} (h : C.Alive) :
    (({ C with net := net } : Cluster).put n w).Alive ↔ w.failed = none := by
  constructor
  · intro ha
    exact ha n { w with sendQueue := [] } put_nodes_self
  · intro hf k x hx
    by_cases hk : k = n
    · subst hk
      rw [put_nodes_self] at hx
      cases hx
      exact hf
    · rw [put_nodes_of_ne hk] at hx
      exact h k x hx

theorem alive_step (h : C.Sane) (ha : C.Alive) (hl : l.1.Honest) (hs : C.next l = some C') :
    C'.Alive ↔ C.AcksBelow l := by
  obtain ⟨n, action, w, w', net, hstep, hw, hw', -, hmem, rfl⟩ | ⟨hstep, -, hnodes, -⟩ |
    ⟨n, config, w, hr, -, -, rfl⟩ := next_cases hs
  · have hact := h.action hl hstep hmem
    rw [alive_put ha]
    have hdeliver : ∀ k a, l.1 = .deliver k (.gossipAck a) →
        k = n ∧ action = .receive (.gossipAck a) := by
      intro k a he
      rw [he] at hstep
      cases hstep
      exact ⟨rfl, rfl⟩
    obtain ⟨packet, rfl, -, rfl⟩ | ⟨_, _, _, _, _, he, -, -, -, -, -, rfl⟩ | ⟨-, hne, rfl⟩ :=
      Worker.step_cases (h.wf n w hw) hact hw'
    · rw [receive_failed_iff (h.wf n w hw) hact]
      constructor
      · intro hall k a he x hx
        obtain ⟨rfl, hp⟩ := hdeliver k a he
        cases hp
        cases hw.symm.trans hx
        exact hall a rfl
      · rintro hbelow a rfl
        obtain ⟨event, env⟩ := l
        cases event with
        | deliver k p =>
          cases hstep
          exact hbelow n a rfl w hw
        | act k action => cases hstep; cases hs
        | lose | duplicate | restart => cases hstep
    · refine iff_of_true (ha n w hw) fun k a hd => ?_
      rw [(hdeliver k a hd).2] at he
      cases he
    · refine iff_of_true (ha n w hw) fun k a hd => ?_
      exact absurd (hdeliver k a hd).2 (hne _)
  · refine iff_of_true (by rw [Alive, hnodes]; exact ha) fun k a hd => ?_
    rw [hd] at hstep
    cases hstep
  · refine iff_of_true ((alive_put ha).mpr rfl) fun k a hd => ?_
    rw [hr] at hd
    cases hd

/-- **The handlers survive**, whatever nodes restart, in exactly the runs in which every
acknowledgement handled is at most the counter of its receiver. -/
theorem survives_iff (C : Cluster) (hC : Initial C) (ls : List (Event × Env))
    (hls : Along next (fun _ l => l.1.Honest) C ls) :
    Always next Alive C ls ↔ Along next AcksBelow C ls := by
  refine @always_iff_along _ _ next _ Sane _ _ (fun C l C' hsane ha hl hs => ?_) _ _ hC.sane ?_ hls
  · exact ⟨alive_step hsane ha hl hs, fun _ => hsane.next hl hs⟩
  · intro n w hw
    obtain ⟨config, env, -, rfl⟩ := hC.nodes n w hw
    rfl

/-! ## A restart -/

open Worker (nodeA still)

def nodeB : Config := ⟨"b", ["a"], ∅, 1, by decide⟩

def pair : Cluster where
  nodes := fun n =>
    if n = "a" then some (.init nodeA still) else if n = "b" then some (.init nodeB still) else none
  net := []

theorem pair_initial : Initial pair where
  nodes := by
    intro n w hw
    rw [pair] at hw
    dsimp only at hw
    split at hw
    · rename_i hn
      cases hw
      exact ⟨nodeA, still, hn.symm, rfl⟩
    · split at hw
      · rename_i hn
        cases hw
        exact ⟨nodeB, still, hn.symm, rfl⟩
      · cases hw
  net := rfl

def colour (value : UInt8) : Metadata := Finmap.singleton "colour" [value]

/-- `a` changes its metadata twice and tells `b`; while the acknowledgement is in flight, `a`
restarts. -/
def restarted : List (Event × Env) :=
  [(.act "a" (.update "a" none (some (colour 1))), still),
    (.act "a" (.update "a" none (some (colour 2))), still),
    (.act "a" (.disseminate "b"), still),
    (.deliver "b" (.gossip ⟨⟨"a", []⟩, "a", 3, .online, some (colour 2)⟩), still),
    (.restart "a" nodeA, ⟨0, fun _ => [1]⟩),
    (.deliver "a" (.gossipAck ⟨⟨"b", []⟩, "a", 3⟩), still)]

theorem restarted_honest : Along next (fun _ l => l.1.Honest) pair restarted := by
  decide +kernel

theorem survives_iff_restarted :
    Always next Alive pair restarted ↔ Along next AcksBelow pair restarted :=
  survives_iff pair pair_initial restarted restarted_honest

/-- The acknowledgement of the previous incarnation's gossip is above the new counter. -/
theorem handler_fails : ¬ ∀ (C : Cluster), Initial C → ∀ ls : List (Event × Env),
    Along next (fun _ l => l.1.Honest) C ls → Always next Alive C ls := by
  intro h
  have hrun : (run next pair restarted).bind (fun C => (C.nodes "a").map Worker.failed) =
      some (some .assertion) := by decide +kernel
  obtain ⟨C, hC, hfailed⟩ := Option.bind_eq_some_iff.mp hrun
  obtain ⟨w, hw, hf⟩ := Option.map_eq_some_iff.mp hfailed
  have halive := (h pair pair_initial restarted restarted_honest).last hC "a" w hw
  rw [hf] at halive
  cases halive

end Cluster

end Swim
