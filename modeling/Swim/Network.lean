import Swim.Refines
import Swim.Cluster

/-!
# Swim.Network

Any number of event loops with distinct names, and the network of `Swim.Cluster` between them. In a
`Cluster` the outcome of a check is any; here a check is the coroutine of `Swim.Check`, so its
outcome is what the packets handled meanwhile make it.

* `next` — one event: a turn of one event loop, a delivery, a loss, a duplication, or a restart.
* `forget` — the cluster of the workers, without the checks under way.
* `next_refines`, `reach_refines` — an event is one of the cluster or changes nothing there, so what
  holds in every reachable cluster holds of every reachable network.
-/

namespace Swim

open Transition

structure Network where
  nodes : Name → Option Loop
  net : List (Name × Packet)

namespace Network

inductive Event where
  | turn (n : Name) (turn : Turn)
  | deliver (n : Name) (packet : Packet)
  | lose (n : Name) (packet : Packet)
  | duplicate (n : Name) (packet : Packet)
  | restart (n : Name) (config : Config)

/-- Node `n` is now `L`, and what it queued is in flight. -/
def put (N : Network) (n : Name) (L : Loop) : Network where
  nodes := Function.update N.nodes n (some { L with worker := { L.worker with sendQueue := [] } })
  net := N.net ++ L.worker.sendQueue

def take (N : Network) (n : Name) (packet : Packet) : Network :=
  { N with net := N.net.erase (n, packet) }

def next (N : Network) (l : Event × Env) : Option Network :=
  match l.1 with
  | .turn _ (.other (.receive _)) => none
  | .turn n turn => (N.nodes n).bind fun L => (L.next (turn, l.2)).map (N.put n)
  | .deliver n packet =>
    if N.net.contains (n, packet) then
      (N.nodes n).bind fun L =>
        (L.next (.other (.receive packet), l.2)).map ((N.take n packet).put n)
    else none
  | .lose n packet => if N.net.contains (n, packet) then some (N.take n packet) else none
  | .duplicate n packet =>
    if N.net.contains (n, packet) then some { N with net := (n, packet) :: N.net } else none
  | .restart n config =>
    if config.localName = n then (N.nodes n).map fun _ => N.put n (.start config l.2) else none

structure Initial (N : Network) : Prop where
  nodes : ∀ n L, N.nodes n = some L → ∃ config env, config.localName = n ∧ L = .start config env
  net : N.net = []

def Event.Honest : Event → Prop
  | turn _ t => t.Honest
  | deliver _ _ | lose _ _ | duplicate _ _ | restart _ _ => True

def Event.isRestart : Event → Bool
  | restart _ _ => true
  | turn _ _ | deliver _ _ | lose _ _ | duplicate _ _ => false

def Event.step : Event → Option (Name × Turn)
  | turn n t => some (n, t)
  | deliver n packet => some (n, .other (.receive packet))
  | lose _ _ | duplicate _ _ | restart _ _ => none

def forget (N : Network) : Cluster where
  nodes := fun n => (N.nodes n).map fun L => L.worker.forget
  net := N.net

variable {N N' : Network} {l : Event × Env} {n : Name} {L L' : Loop}

@[simp] theorem put_nodes_self : (N.put n L).nodes n =
    some { L with worker := { L.worker with sendQueue := [] } } := Function.update_self _ _ _

theorem put_nodes_of_ne {k : Name} (h : k ≠ n) : (N.put n L).nodes k = N.nodes k :=
  Function.update_of_ne h _ _

theorem next_turn {t : Turn} {env : Env} (hne : ∀ packet, t ≠ .other (.receive packet)) :
    N.next (.turn n t, env) = (N.nodes n).bind fun L => (L.next (t, env)).map (N.put n) := by
  cases t with
  | other action =>
    cases action with
    | receive packet => exact absurd rfl (hne packet)
    | ping | pingReq | verdict | expire | disseminate | update => rfl
  | check | wake | send => rfl

theorem turn_cases {t : Turn} {env : Env} (h : N.next (.turn n t, env) = some N') :
    (∀ packet, t ≠ .other (.receive packet)) ∧ ∃ L L', N.nodes n = some L ∧
      L.next (t, env) = some L' ∧ N' = N.put n L' := by
  have hne : ∀ packet, t ≠ .other (.receive packet) := by
    rintro packet rfl
    cases h
  rw [next_turn hne] at h
  obtain ⟨L, hL, hs⟩ := Option.bind_eq_some_iff.mp h
  obtain ⟨L', hL', rfl⟩ := Option.map_eq_some_iff.mp hs
  exact ⟨hne, L, L', hL, hL', rfl⟩

/-- **Inversion of an event.** -/
theorem next_cases (h : N.next l = some N') :
    (∃ n turn L L' net, l.1.step = some (n, turn) ∧ N.nodes n = some L ∧
      L.next (turn, l.2) = some L' ∧ (∀ x ∈ net, x ∈ N.net) ∧
      (∀ packet, turn = .other (.receive packet) → (n, packet) ∈ N.net) ∧
      N' = ({ N with net := net } : Network).put n L') ∨
    (l.1.step = none ∧ l.1.isRestart = false ∧ N'.nodes = N.nodes ∧ ∀ x ∈ N'.net, x ∈ N.net) ∨
    (∃ n config L, l.1 = .restart n config ∧ config.localName = n ∧ N.nodes n = some L ∧
      N' = N.put n (.start config l.2)) := by
  obtain ⟨event, env⟩ := l
  cases event with
  | turn n turn =>
    obtain ⟨hne, L, L', hL, hL', rfl⟩ := turn_cases h
    exact Or.inl ⟨n, turn, L, L', N.net, rfl, hL, hL', fun _ hx => hx,
      fun packet hp => absurd hp (hne packet), rfl⟩
  | deliver n packet =>
    simp only [next] at h
    split at h
    · rename_i hmem
      obtain ⟨L, hL, hs⟩ := Option.bind_eq_some_iff.mp h
      obtain ⟨L', hL', rfl⟩ := Option.map_eq_some_iff.mp hs
      exact Or.inl ⟨n, _, L, L', _, rfl, hL, hL', fun _ hx => List.mem_of_mem_erase hx,
        by rintro p ⟨⟩; exact List.contains_iff_mem.mp hmem, rfl⟩
    · cases h
  | lose n packet =>
    simp only [next] at h
    split at h
    · cases h
      exact Or.inr (Or.inl ⟨rfl, rfl, rfl, fun _ hx => List.mem_of_mem_erase hx⟩)
    · cases h
  | duplicate n packet =>
    simp only [next] at h
    split at h
    · rename_i hmem
      cases h
      refine Or.inr (Or.inl ⟨rfl, rfl, rfl, fun x hx => ?_⟩)
      rcases List.mem_cons.mp hx with rfl | hx
      · exact List.contains_iff_mem.mp hmem
      · exact hx
    · cases h
  | restart n config =>
    simp only [next] at h
    split at h
    · rename_i hname
      obtain ⟨L, hL, rfl⟩ := Option.map_eq_some_iff.mp h
      exact Or.inr (Or.inr ⟨n, config, L, rfl, hname, hL, rfl⟩)
    · cases h

/-! ## The cluster -/

theorem forget_nodes (n : Name) :
    N.forget.nodes n = (N.nodes n).map fun L => L.worker.forget := rfl

theorem forget_some (hL : N.nodes n = some L) : N.forget.nodes n = some L.worker.forget := by
  rw [forget_nodes, hL]; rfl

theorem forget_put : (N.put n L).forget = N.forget.put n L.worker.forget := by
  have hnodes : (N.put n L).forget.nodes = (N.forget.put n L.worker.forget).nodes := by
    funext k
    by_cases hk : k = n
    · subst hk
      rw [forget_some put_nodes_self, Cluster.put_nodes_self]
      rfl
    · rw [Cluster.put_nodes_of_ne hk, forget_nodes, put_nodes_of_ne hk]
      rfl
  exact congrArg (fun nodes => (⟨nodes, N.net ++ L.worker.sendQueue⟩ : Cluster)) hnodes

structure Sane (N : Network) : Prop where
  sound : ∀ n L, N.nodes n = some L → L.Sound
  cluster : N.forget.Sane

/-- **An event of the network** is one of the cluster, or the cluster does not notice. -/
theorem next_refines (h : N.Sane) (hl : l.1.Honest) (hs : N.next l = some N') :
    N'.forget = N.forget ∨ ∃ event, event.Honest ∧ event.isRestart = l.1.isRestart ∧
      N.forget.next (event, l.2) = some N'.forget := by
  obtain ⟨event, env⟩ := l
  cases event with
  | turn n t =>
    obtain ⟨hne, L, L', hL, hL', rfl⟩ := turn_cases hs
    obtain heq | ⟨action, hmakes, hstep⟩ := Loop.next_makes (h.sound n L hL) hL'
    · refine Or.inl ?_
      rw [forget_put, heq]
      exact Cluster.put_eq_self (forget_some hL) (h.cluster.drained n _ (forget_some hL))
    · refine Or.inr ⟨.act n action, hmakes.honest hl, rfl, ?_⟩
      rw [Cluster.next_act (hmakes.ne_receive hne), forget_some hL, Option.bind_some, hstep,
        Option.map_some, forget_put]
  | deliver n packet =>
    simp only [next] at hs
    split at hs
    · rename_i hmem
      obtain ⟨L, hL, hs⟩ := Option.bind_eq_some_iff.mp hs
      obtain ⟨L', hL', rfl⟩ := Option.map_eq_some_iff.mp hs
      obtain ⟨w, hw, rfl⟩ := Option.map_eq_some_iff.mp hL'
      have hstep := Worker.step_forget (h.sound n L hL).wf.toKeyed hw
      refine Or.inr ⟨.deliver n packet, trivial, rfl, ?_⟩
      have hmem' : (n, packet) ∈ N.forget.net := List.contains_iff_mem.mp hmem
      refine (if_pos hmem').trans ?_
      rw [forget_some hL, Option.bind_some, hstep, Option.map_some, forget_put]
      rfl
    · cases hs
  | lose n packet =>
    simp only [next] at hs
    split at hs
    · rename_i hmem
      cases hs
      exact Or.inr ⟨.lose n packet, trivial, rfl, if_pos (List.contains_iff_mem.mp hmem)⟩
    · cases hs
  | duplicate n packet =>
    simp only [next] at hs
    split at hs
    · rename_i hmem
      cases hs
      exact Or.inr ⟨.duplicate n packet, trivial, rfl, if_pos (List.contains_iff_mem.mp hmem)⟩
    · cases hs
  | restart n config =>
    simp only [next] at hs
    split at hs
    · rename_i hname
      obtain ⟨L, hL, rfl⟩ := Option.map_eq_some_iff.mp hs
      refine Or.inr ⟨.restart n config, trivial, rfl, ?_⟩
      refine (if_pos hname).trans ?_
      rw [forget_some hL, forget_put]
      rfl
    · cases hs

theorem Initial.forget (h : Initial N) : Cluster.Initial N.forget where
  nodes := by
    intro n w hw
    obtain ⟨L, hL, rfl⟩ := Option.map_eq_some_iff.mp hw
    obtain ⟨config, env, hname, rfl⟩ := h.nodes n L hL
    exact ⟨config, env, hname, rfl⟩
  net := h.net

theorem Initial.sane (h : Initial N) : N.Sane where
  sound := by
    intro n L hL
    obtain ⟨config, env, -, rfl⟩ := h.nodes n L hL
    exact Loop.sound_start config
  cluster := h.forget.sane

theorem Sane.turn (h : N.Sane) (hl : l.1.Honest) {t : Turn} (hstep : l.1.step = some (n, t))
    (hmem : ∀ packet, t = .other (.receive packet) → (n, packet) ∈ N.net) : t.Honest := by
  obtain ⟨event, env⟩ := l
  cases event with
  | turn k s => cases hstep; exact hl
  | deliver k packet => cases hstep; exact h.cluster.honest _ _ (hmem packet rfl)
  | lose | duplicate | restart => cases hstep

theorem Sane.next (h : N.Sane) (hl : l.1.Honest) (hs : N.next l = some N') : N'.Sane where
  sound := by
    have hput : ∀ {N₀ : Network} {n : Name} {L' : Loop}, N₀.nodes = N.nodes → L'.Sound →
        ∀ k K, (N₀.put n L').nodes k = some K → K.Sound := by
      intro N₀ n L' hnodes hL' k K hK
      by_cases hk : k = n
      · subst hk
        rw [put_nodes_self] at hK
        cases hK
        exact ⟨hL'.wf, hL'.targets⟩
      · rw [put_nodes_of_ne hk, hnodes] at hK
        exact h.sound k K hK
    obtain ⟨n, t, L, L', net, hstep, hL, hL', -, hmem, rfl⟩ | ⟨-, -, hnodes, -⟩ |
      ⟨n, config, L, -, -, -, rfl⟩ := next_cases hs
    · exact hput rfl ((h.sound n L hL).next (h.turn hl hstep hmem) hL')
    · rw [hnodes]; exact h.sound
    · exact hput rfl (Loop.sound_start config)
  cluster := by
    obtain heq | ⟨event, hevent, -, hnext⟩ := next_refines h hl hs
    · rw [heq]; exact h.cluster
    · exact h.cluster.next hevent hnext

end Network

end Swim
