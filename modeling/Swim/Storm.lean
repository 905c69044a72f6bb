import Mathlib.Data.Set.Finite.Lattice
import Swim.Cluster
import Swim.Transition.Measure

/-!
# Swim.Storm

Nothing but handling and losing packets cannot go on for ever: what the handlers send in reply, and
what they forward to the members listening for a source, dies out.

* `Packet.weight` — what a packet can still cause. A `Ping` is answered by an `Ack`, a `Gossip` by a
  `GossipAck`, and a `PingReq` by a `Ping` and an entry in the listening table.
* `Worker.receive_weight` — handling a packet lowers the weight of what is left: a forwarded `Ack`
  takes an entry out of the table.
* `Cluster.no_storm` — a bound on every run that only delivers and loses packets.
-/

namespace Swim

open Transition

namespace Packet

/-- What a packet can still cause, itself included. -/
def weight : Packet → ℕ
  | ack _ | gossipAck _ => 1
  | ping _ | gossip _ => 2
  | pingReq _ _ => 4

theorem weight_pos (packet : Packet) : 0 < packet.weight := by
  cases packet <;> exact Nat.zero_lt_succ _

def asked : Packet → List Name
  | pingReq _ target => [target]
  | ping _ | ack _ | gossip _ | gossipAck _ => []

end Packet

def weights : List (Name × Packet) → ℕ
  | [] => 0
  | x :: packets => x.2.weight + weights packets

@[simp] theorem weights_nil : weights [] = 0 := rfl

@[simp] theorem weights_cons (x : Name × Packet) (packets : List (Name × Packet)) :
    weights (x :: packets) = x.2.weight + weights packets := rfl

@[simp] theorem weights_append (as bs : List (Name × Packet)) :
    weights (as ++ bs) = weights as + weights bs := by
  induction as with
  | nil => simp
  | cons a as ih => simp [ih, Nat.add_assoc]

theorem weights_erase {packets : List (Name × Packet)} {n : Name} {packet : Packet}
    (h : (n, packet) ∈ packets) :
    packet.weight + weights (packets.erase (n, packet)) = weights packets := by
  induction packets with
  | nil => cases h
  | cons x packets ih =>
    by_cases hx : x = (n, packet)
    · subst hx
      simp
    · have hrest := ih ((List.mem_cons.mp h).resolve_left (Ne.symm hx))
      rw [List.erase_cons_tail (by simpa using hx), weights_cons, weights_cons, ← hrest]
      omega

namespace Worker

variable {w : Worker} {packet : Packet} {env : Env} {S : Finset Name}

def entries (S : Finset Name) (listening : Name → List Name) : ℕ :=
  ∑ source ∈ S, (listening source).length

/-- What the queue and the listening table of a worker can still cause. -/
def weight (S : Finset Name) (w : Worker) : ℕ := weights w.sendQueue + entries S w.listening

theorem weights_relayed (h : w.members.Keyed) :
    weights (w.relayed packet env) = (w.listening packet.source.name).length := by
  rw [relayed, (@Members.Keyed.met w.members packet env h).2.2.2]
  induction w.listening packet.source.name with
  | nil => rfl
  | cons target targets ih =>
    rw [List.map_cons, weights_cons, ih, List.length_cons]
    exact Nat.add_comm _ _

/-- The table after the pass: the entries for the source are gone, a `PingReq` may add one. -/
theorem entries_listeningAfter {listening : Name → List Name}
    (hsource : listening packet.source.name ≠ [] → packet.source.name ∈ S)
    (hasked : ∀ target ∈ packet.asked, target ∈ S) :
    (listening packet.source.name).length + entries S (listeningAfter packet listening) ≤
      entries S listening + packet.asked.length := by
  have hpop : (listening packet.source.name).length +
      entries S (Function.update listening packet.source.name []) = entries S listening := by
    by_cases hs : packet.source.name ∈ S
    · have hsum := @sum_update _ _ _ S listening packet.source.name List.length hs []
      simpa [entries] using hsum
    · have hnil : listening packet.source.name = [] := by
        by_contra hne
        exact hs (hsource hne)
      rw [← hnil, Function.update_eq_self, hnil, List.length_nil, Nat.zero_add]
  cases packet with
  | ping | ack | gossip | gossipAck => exact le_of_eq hpop
  | pingReq source target =>
    have ht := hasked target (by simp [Packet.asked])
    simp only [listeningAfter]
    split
    · exact le_trans (le_of_eq hpop) (Nat.le_add_right _ _)
    · have hsum := @sum_update _ _ _ S (Function.update listening source.name []) target
        List.length ht (Function.update listening source.name [] target ++ [source.name])
      have hadd : entries S (Function.update (Function.update listening source.name []) target
          (Function.update listening source.name [] target ++ [source.name])) =
          entries S (Function.update listening source.name []) + 1 := by
        rw [List.length_append, List.length_singleton] at hsum
        rw [entries, entries]
        omega
      rw [Packet.source_pingReq] at hpop ⊢
      rw [hadd, ← Nat.add_assoc, hpop]
      rfl

theorem weights_reply (w : Worker) (packet : Packet) :
    weights (w.reply packet) + packet.asked.length < packet.weight := by
  cases packet <;> simp [reply, Packet.weight, Packet.asked]

/-- **Handling a packet lowers the weight.** -/
theorem receive_weight (h : w.members.Keyed)
    (hsource : w.listening packet.source.name ≠ [] → packet.source.name ∈ S)
    (hasked : ∀ target ∈ packet.asked, target ∈ S) :
    (w.receive packet env).weight S < w.weight S + packet.weight := by
  have hreply : weights (w.queued packet env) + packet.asked.length <
      (w.listening packet.source.name).length + packet.weight := by
    rw [queued, weights_append, weights_relayed h, Nat.add_assoc]
    refine Nat.add_lt_add_left ?_ _
    split
    · exact weights_reply _ packet
    · exact lt_of_le_of_lt (by simp) (weights_reply w packet)
  have hentries := entries_listeningAfter hsource hasked
  rw [receive_eq h]
  simp only [weight, passed, weights_append]
  omega

theorem listeningAfter_mem {listening : Name → List Name} (h : ∀ s, listening s ≠ [] → s ∈ S)
    (hasked : ∀ target ∈ packet.asked, target ∈ S) :
    ∀ s, listeningAfter packet listening s ≠ [] → s ∈ S := by
  have hpop : ∀ s, Function.update listening packet.source.name [] s ≠ [] → s ∈ S := by
    intro s hs
    by_cases hsource : s = packet.source.name
    · subst hsource
      exact absurd (Function.update_self _ _ _) hs
    · rw [Function.update_of_ne hsource] at hs
      exact h s hs
  cases packet with
  | ping | ack | gossip | gossipAck => exact hpop
  | pingReq source target =>
    intro s hs
    by_cases ht : s = target
    · subst ht
      exact hasked s (by simp [Packet.asked])
    · refine hpop s ?_
      simp only [listeningAfter] at hs
      split at hs
      · exact hs
      · rwa [Function.update_of_ne ht] at hs

theorem queued_asked {x : Name × Packet} (hx : x ∈ w.queued packet env) : x.2.asked = [] := by
  rw [queued, List.mem_append] at hx
  obtain hx | hx := hx
  · obtain ⟨target, -, rfl⟩ := List.mem_map.mp hx
    rfl
  · split at hx
    · cases packet with
      | ack | gossipAck => cases hx
      | ping | pingReq | gossip => rw [List.mem_singleton.mp hx]; rfl
    · cases hx

end Worker

namespace Cluster

variable {C C' : Cluster} {l : Event × Env} {S : Finset Name}

/-- What a cluster can still cause by itself. -/
def weight (S : Finset Name) (C : Cluster) : ℕ :=
  weights C.net + ∑ n ∈ S, ((C.nodes n).map (Worker.weight S)).getD 0

def Event.fades : Event → Prop
  | deliver _ _ | lose _ _ => True
  | act _ _ | duplicate _ _ | restart _ _ => False

/-- All names that matter to the weight: of the nodes, of the members they listen for, and of those
someone is asked to ping. -/
structure Within (S : Finset Name) (C : Cluster) : Prop where
  nodes : ∀ n w, C.nodes n = some w → n ∈ S
  keyed : ∀ n w, C.nodes n = some w → w.members.Keyed
  listening : ∀ n w, C.nodes n = some w → ∀ s, w.listening s ≠ [] → s ∈ S
  queue : ∀ n w, C.nodes n = some w → ∀ x ∈ w.sendQueue, ∀ t ∈ x.2.asked, t ∈ S
  net : ∀ x ∈ C.net, ∀ t ∈ x.2.asked, t ∈ S

theorem weight_put {n : Name} {w w' : Worker} (hn : n ∈ S) (hw : C.nodes n = some w) :
    w.weight S + (C.put n w').weight S = C.weight S + w'.weight S := by
  have hsum := @sum_update _ _ _ S C.nodes n (fun o => (o.map (Worker.weight S)).getD 0) hn
    (some { w' with sendQueue := [] })
  rw [hw] at hsum
  simp only [Option.map_some, Option.getD_some] at hsum
  have hqueue : w'.weight S =
      weights w'.sendQueue + ({ w' with sendQueue := [] } : Worker).weight S := by
    simp [Worker.weight]
  simp only [weight, put, weights_append]
  omega

theorem weight_take {n : Name} {packet : Packet} (h : (n, packet) ∈ C.net) :
    packet.weight + (C.take n packet).weight S = C.weight S := by
  have herase := weights_erase h
  simp only [weight, take]
  omega

theorem Within.put {n : Name} {w : Worker} (h : C.Within S) (hn : n ∈ S)
    (hkeyed : w.members.Keyed) (hlistening : ∀ s, w.listening s ≠ [] → s ∈ S)
    (hqueue : ∀ x ∈ w.sendQueue, ∀ t ∈ x.2.asked, t ∈ S) : (C.put n w).Within S := by
  have hnode : ∀ k x, (C.put n w).nodes k = some x → k = n ∧ x = { w with sendQueue := [] } ∨
      C.nodes k = some x := by
    intro k x hx
    by_cases hk : k = n
    · subst hk
      rw [put_nodes_self] at hx
      exact Or.inl ⟨rfl, (Option.some.inj hx).symm⟩
    · rw [put_nodes_of_ne hk] at hx
      exact Or.inr hx
  constructor
  · intro k x hx
    obtain ⟨rfl, -⟩ | hx := hnode k x hx
    · exact hn
    · exact h.nodes k x hx
  · intro k x hx
    obtain ⟨-, rfl⟩ | hx := hnode k x hx
    · exact hkeyed
    · exact h.keyed k x hx
  · intro k x hx
    obtain ⟨-, rfl⟩ | hx := hnode k x hx
    · exact hlistening
    · exact h.listening k x hx
  · intro k x hx
    obtain ⟨-, rfl⟩ | hx := hnode k x hx
    · exact fun y hy => absurd hy List.not_mem_nil
    · exact h.queue k x hx
  · intro x hx
    obtain hx | hx := List.mem_append.mp hx
    · exact h.net x hx
    · exact hqueue x hx

/-- **One event.** -/
theorem weight_next (h : C.Within S) (hf : l.1.fades) (hs : C.next l = some C') :
    C'.Within S ∧ C'.weight S < C.weight S := by
  obtain ⟨event, env⟩ := l
  cases event with
  | act | duplicate | restart => exact absurd hf id
  | lose n packet =>
    simp only [next] at hs
    split at hs
    · rename_i hmem
      cases hs
      refine ⟨⟨h.nodes, h.keyed, h.listening, h.queue, fun x hx => h.net x (mem_take hx)⟩, ?_⟩
      have htake := @weight_take C S n packet hmem
      have hpos := Packet.weight_pos packet
      omega
    · cases hs
  | deliver n packet =>
    simp only [next] at hs
    split at hs
    · rename_i hmem
      obtain ⟨w, hw, hs⟩ := Option.bind_eq_some_iff.mp hs
      obtain ⟨w', hw', rfl⟩ := Option.map_eq_some_iff.mp hs
      obtain ⟨-, rfl⟩ := Worker.step_receive hw'
      have hkeyed := h.keyed n w hw
      have hsource := h.listening n w hw packet.source.name
      have hasked := h.net _ hmem
      have htaken : (C.take n packet).Within S :=
        ⟨h.nodes, h.keyed, h.listening, h.queue, fun x hx => h.net x (mem_take hx)⟩
      refine ⟨htaken.put (h.nodes n w hw) ?_ ?_ ?_, ?_⟩
      · rw [Worker.receive_members hkeyed]; exact hkeyed.handled
      · rw [Worker.receive_eq hkeyed]
        exact Worker.listeningAfter_mem (h.listening n w hw) hasked
      · rw [Worker.receive_eq hkeyed]
        intro x hx t ht
        obtain hx | hx := List.mem_append.mp hx
        · exact h.queue n w hw x hx t ht
        · rw [Worker.queued_asked hx] at ht; cases ht
      · have hput := @weight_put (C.take n packet) S n w (w.receive packet env) (h.nodes n w hw) hw
        have htake := @weight_take C S n packet hmem
        have hlt := @Worker.receive_weight w packet env S hkeyed hsource hasked
        omega
    · cases hs

/-- Finitely many nodes, and finitely many packets, name finitely many names. -/
theorem exists_within (hnodes : {n | (C.nodes n).isSome}.Finite)
    (htables : ∀ n w, C.nodes n = some w →
      w.members.Keyed ∧ {source | w.listening source ≠ []}.Finite) : ∃ S, C.Within S := by
  have hasked : ∀ packets : List (Name × Packet), {t | ∃ x ∈ packets, t ∈ x.2.asked}.Finite := by
    intro packets
    refine (packets.flatMap fun x => x.2.asked).finite_toSet.subset ?_
    rintro t ⟨x, hx, ht⟩
    exact List.mem_flatMap.mpr ⟨x, hx, ht⟩
  let named n := {s | ∃ w, C.nodes n = some w ∧
    (w.listening s ≠ [] ∨ ∃ x ∈ w.sendQueue, s ∈ x.2.asked)}
  have hnamed : ∀ n ∈ {n | (C.nodes n).isSome}, (named n).Finite := by
    intro n hn
    obtain ⟨w, hw⟩ := Option.isSome_iff_exists.mp hn
    refine ((htables n w hw).2.union (hasked w.sendQueue)).subset ?_
    rintro s ⟨w', hw', hs⟩
    cases hw.symm.trans hw'
    exact hs
  have hall := (hnodes.union (hnodes.biUnion hnamed)).union (hasked C.net)
  have hmem : ∀ n w, C.nodes n = some w → ∀ s ∈ named n, s ∈ hall.toFinset := by
    intro n w hw s hs
    rw [Set.Finite.mem_toFinset]
    exact Or.inl (Or.inr (Set.mem_biUnion (Option.isSome_iff_exists.mpr ⟨w, hw⟩) hs))
  refine ⟨hall.toFinset, ?_, fun n w hw => (htables n w hw).1, ?_, ?_, ?_⟩
  · intro n w hw
    rw [Set.Finite.mem_toFinset]
    exact Or.inl (Or.inl (Option.isSome_iff_exists.mpr ⟨w, hw⟩))
  · intro n w hw s hs
    exact hmem n w hw s ⟨w, hw, Or.inl hs⟩
  · intro n w hw x hx t ht
    exact hmem n w hw t ⟨w, hw, Or.inr ⟨x, hx, ht⟩⟩
  · intro x hx t ht
    rw [Set.Finite.mem_toFinset]
    exact Or.inr ⟨x, hx, ht⟩

/-- **No packet storm.** From any finite state, with any packets in flight, the runs that only
handle and lose packets are bounded, and none goes on for ever. -/
theorem no_storm (C : Cluster) (hnodes : {n | (C.nodes n).isSome}.Finite)
    (htables : ∀ n w, C.nodes n = some w →
      w.members.Keyed ∧ {source | w.listening source ≠ []}.Finite) :
    (∃ bound, ∀ ls C', (∀ l ∈ ls, l.1.fades) → run next C ls = some C' → ls.length ≤ bound) ∧
    ¬ ∃ (states : ℕ → Cluster) (labels : ℕ → Event × Env), states 0 = C ∧
      ∀ i, (labels i).1.fades ∧ (states i).next (labels i) = some (states (i + 1)) := by
  obtain ⟨S, hS⟩ := exists_within hnodes htables
  have hstep : ∀ C l C', Within S C → Event.fades (Prod.fst l) → next C l = some C' →
      Within S C' ∧ weight S C' < weight S C := fun C l C' h hf hs => weight_next h hf hs
  refine ⟨⟨C.weight S, fun ls C' hf hr => ?_⟩, ?_⟩
  · have hle := run_length hstep hS (along_of_forall fun l hl _ => hf l hl) hr
    omega
  · rintro ⟨states, labels, rfl, h⟩
    exact no_infinite hstep states labels hS h

open Worker (nodeA still)

/-- `a` and `b` listen for each other on behalf of each other, and a packet of each is in flight. -/
def crossed : Cluster where
  nodes := fun n =>
    if n = "a" then some { Worker.init nodeA still with
      listening := fun s => if s = "b" then ["b"] else [] }
    else if n = "b" then some { Worker.init nodeB still with
      listening := fun s => if s = "a" then ["a"] else [] }
    else none
  net := [("a", .pingReq ⟨"b", []⟩ "c"), ("b", .ping ⟨"a", []⟩)]

theorem no_storm_crossed : ∃ bound, ∀ ls C', (∀ l ∈ ls, l.1.fades) →
    run next crossed ls = some C' → ls.length ≤ bound := by
  refine (no_storm crossed (Set.Finite.subset (Set.toFinite {"a", "b"}) ?_) ?_).1
  · intro n hn
    by_contra hno
    simp only [Set.mem_insert_iff, Set.mem_singleton_iff, not_or] at hno
    simp [crossed, hno.1, hno.2] at hn
  · intro n w hw
    simp only [crossed] at hw
    split at hw
    · cases hw
      exact ⟨(@Worker.init_wf still nodeA).toKeyed, Set.Finite.subset (Set.toFinite {"b"})
        fun s hs => by by_contra hno; exact hs (if_neg hno)⟩
    · split at hw
      · cases hw
        exact ⟨(@Worker.init_wf still nodeB).toKeyed, Set.Finite.subset (Set.toFinite {"a"})
          fun s hs => by by_contra hno; exact hs (if_neg hno)⟩
      · cases hw

end Cluster

end Swim
