import Swim.Holding
import Swim.Cluster

/-!
# Swim.Origins

Where metadata come from: whatever is known of the metadata of a member, in any table or in any
gossip in flight, its own process has set.

* `Worker.step_dataOf` — after a step, the metadata held for a name are those the application sets,
  those of the gossip the step handles, or those held before; gossip never changes the local ones.
* `values` — what the process of a name has set in a run, in order.
* `origins` — over whole runs, restarts included.
-/

namespace Swim

open Transition

theorem Members.dataOf_init (config : Config) (env : Env) (P : Name) :
    (init config env).after.dataOf P =
      if P = config.localName then some config.localMetadata else none := by
  obtain ⟨M, hM, -, -, -, hlocal, hnew, -⟩ := init_ok config env
  rw [hM, Py.after_ok]
  split
  · rename_i hP; rw [hP, dataOf_some hlocal]; rfl
  · rename_i hP
    cases hm : M.members P with
    | some m => rw [dataOf_some hm, hnew P m hP hm]; rfl
    | none => exact dataOf_none hm

namespace Worker

variable {w w' : Worker} {action : Action} {env : Env} {P : Name}

def Action.sets (P : Name) : Action → Option Metadata
  | update name _ newMetadata => if P = name then newMetadata else none
  | receive _ | ping _ | pingReq _ _ | verdict _ _ | expire _ | disseminate _ => none

theorem receive_dataOf (h : w.members.Wf) {g : Gossip} (hg : (Packet.gossip g).Honest)
    (hs : w.step (.receive (.gossip g)) env = some w') :
    w'.members.dataOf P = w.members.dataOf P ∨
      g.name = P ∧ P ≠ w.members.localName ∧ w'.members.dataOf P = g.metadata := by
  by_cases hP : g.name = P
  · subst hP
    rw [gossip_dataOf h hg hs]
    split
    · rename_i hboth
      cases hμ : g.metadata with
      | none => exact Or.inl rfl
      | some μ => exact Or.inr ⟨rfl, hboth.1, rfl⟩
    · exact Or.inl rfl
  · have hshift := @step_shift w w' (.receive (.gossip g)) env h hg hs
    exact Or.inl (hshift.data P fun heq => hP (Option.some.inj heq))

/-- **What a step makes of the metadata held for a name.** -/
theorem step_dataOf (h : w.members.Wf) (ha : action.Honest) (hs : w.step action env = some w')
    (P : Name) : w'.members.dataOf P = (action.sets P).or (w.members.dataOf P) ∨
      ∃ g, action = .receive (.gossip g) ∧ g.name = P ∧ P ≠ w.members.localName ∧
        w'.members.dataOf P = g.metadata := by
  have hkeep : (∀ x, action.change w.members.nextClock = some x → x.1 ≠ P) →
      w'.members.dataOf P = w.members.dataOf P := by
    intro hno
    refine (step_shift h ha hs).data P ?_
    cases hc : action.change w.members.nextClock with
    | none => exact nofun
    | some x => exact fun heq => hno x hc (Option.some.inj heq)
  have hedit : ∀ {name status metadata}, action.change w.members.nextClock =
      some (name, none, w.members.nextClock, status, metadata) →
        w'.members.dataOf P = (if P = name then metadata else none).or (w.members.dataOf P) := by
    intro name status metadata hc
    split
    · rename_i hP
      subst hP
      obtain ⟨src, m', hsrc, hm', hsame⟩ := step_applied h ha hs hc
      obtain rfl := Option.map_eq_none_iff.mp hsrc
      have hset : (w.members.found P env).Settled w.members.nextClock := h.found_settled
      rw [Members.dataOf_some hm', hsame.metadataDict, @Members.dataOf_found w.members P env]
      exact Member.applied_metadataDict hset.dict (by simp) (Member.accepts_none hset.below)
    · rename_i hP
      refine hkeep fun x hx => ?_
      rw [hc] at hx
      cases hx
      exact Ne.symm hP
  cases action with
  | receive packet =>
    cases packet with
    | ping | pingReq | ack | gossipAck => exact Or.inl (hkeep nofun)
    | gossip g =>
      obtain hold | ⟨hname, hremote, hdata⟩ := @receive_dataOf w w' env P h g ha hs
      · exact Or.inl hold
      · exact Or.inr ⟨g, rfl, hname, hremote, hdata⟩
  | ping | pingReq | disseminate => exact Or.inl (hkeep nofun)
  | verdict | expire => exact Or.inl ((hedit rfl).trans (by rw [ite_self]; rfl))
  | update => exact Or.inl (hedit rfl)

end Worker

namespace Cluster

variable {C C' C₀ : Cluster} {l : Event × Env} {ls : List (Event × Env)} {P : Name} {μ : Metadata}

/-- What the process of `P` sets by an event: at its start, or by its application. -/
def Event.sets (P : Name) : Event → Option Metadata
  | act n action => if P = n then action.sets P else none
  | restart n config => if P = n then some config.localMetadata else none
  | deliver _ _ | lose _ _ | duplicate _ _ => none

def Event.SetsOwn : Event → Prop
  | act n (.update name _ newMetadata) => newMetadata = none ∨ name = n
  | _ => True

instance : DecidablePred Event.SetsOwn
  | .act n (.update name _ newMetadata) =>
    inferInstanceAs (Decidable (newMetadata = none ∨ name = n))
  | .act _ (.receive _) | .act _ (.ping _) | .act _ (.pingReq _ _) | .act _ (.verdict _ _)
  | .act _ (.expire _) | .act _ (.disseminate _) => isTrue trivial
  | .deliver _ _ | .lose _ _ | .duplicate _ _ | .restart _ _ => isTrue trivial

/-- What the process of `P` has set for itself in a run from `C₀`, latest last. -/
def values (C₀ : Cluster) (P : Name) (ls : List (Event × Env)) : List Metadata :=
  ((C₀.nodes P).map fun w => w.config.localMetadata).toList ++ ls.filterMap fun l => l.1.sets P

theorem values_concat : values C₀ P (ls ++ [l]) = values C₀ P ls ++ (l.1.sets P).toList := by
  rw [values, values, List.filterMap_append, ← List.append_assoc]
  cases h : l.1.sets P <;> simp [h]

theorem mem_values_concat (h : μ ∈ values C₀ P ls ∨ l.1.sets P = some μ) :
    μ ∈ values C₀ P (ls ++ [l]) := by
  rw [values_concat, List.mem_append, Option.mem_toList]
  exact h

theorem getLast?_values_concat : (values C₀ P (ls ++ [l])).getLast? =
    (l.1.sets P).or (values C₀ P ls).getLast? := by
  rw [values_concat, List.getLast?_append]
  cases l.1.sets P <;> rfl

theorem sets_of_step {n : Name} {action : Worker.Action} (hstep : l.1.step = some (n, action))
    (hown : l.1.SetsOwn) : l.1.sets P = action.sets P ∧ (P ≠ n → action.sets P = none) := by
  obtain ⟨event, env⟩ := l
  cases event with
  | act k a =>
    cases hstep
    have hother : P ≠ n → action.sets P = none := by
      intro hP
      cases action with
      | update name status metadata =>
        simp only [Worker.Action.sets]
        split
        · rename_i hname
          exact hown.resolve_right fun hn => hP (hname.trans hn)
        · rfl
      | receive | ping | pingReq | verdict | expire | disseminate => rfl
    refine ⟨?_, hother⟩
    by_cases hP : P = n
    · exact if_pos hP
    · rw [hother hP]; exact if_neg hP
  | deliver k packet => cases hstep; exact ⟨rfl, fun _ => rfl⟩
  | lose | duplicate | restart => cases hstep

/-- What is known or in flight was set, and a process knows what it set last. -/
structure Grounded (C₀ : Cluster) (ls : List (Event × Env)) (C : Cluster) : Prop where
  held : ∀ n w P μ, C.nodes n = some w → w.members.dataOf P = some μ → μ ∈ values C₀ P ls
  flying : ∀ d g μ, (d, .gossip g) ∈ C.net → g.metadata = some μ → μ ∈ values C₀ g.name ls
  own : ∀ n w, C.nodes n = some w → w.members.dataOf n = (values C₀ n ls).getLast?

theorem Initial.grounded (h : Initial C₀) : Grounded C₀ [] C₀ := by
  have hinit : ∀ n w P, C₀.nodes n = some w → w.members.dataOf P =
      if P = n then some w.config.localMetadata else none := by
    intro n w P hw
    obtain ⟨config, env, rfl, rfl⟩ := h.nodes n w hw
    exact Members.dataOf_init config env P
  refine ⟨fun n w P μ hw hμ => ?_, fun d g μ hg => ?_, fun n w hw => ?_⟩
  · rw [hinit n w P hw] at hμ
    split at hμ
    · rename_i hP
      subst hP
      simpa [values, hw] using (Option.some.inj hμ).symm
    · cases hμ
  · rw [h.net] at hg; cases hg
  · rw [hinit n w n hw, if_pos rfl, values, hw]
    rfl

theorem Grounded.put (h : Grounded C₀ ls C) {n : Name} {w : Worker} {net : List (Name × Packet)}
    (hsets : ∀ P, P ≠ n → l.1.sets P = none)
    (hheld : ∀ P μ, w.members.dataOf P = some μ → μ ∈ values C₀ P (ls ++ [l]))
    (hown : w.members.dataOf n = (values C₀ n (ls ++ [l])).getLast?)
    (hnet : ∀ x ∈ net, x ∈ C.net)
    (hsent : ∀ d g μ, (d, .gossip g) ∈ w.sendQueue → g.metadata = some μ →
      μ ∈ values C₀ g.name (ls ++ [l])) :
    Grounded C₀ (ls ++ [l]) (({ C with net := net } : Cluster).put n w) := by
  refine ⟨fun k x P μ hx hμ => ?_, fun d g μ hg hμ => ?_, fun k x hx => ?_⟩
  · by_cases hk : k = n
    · subst hk
      rw [put_nodes_self] at hx
      cases hx
      exact hheld P μ hμ
    · rw [put_nodes_of_ne hk] at hx
      exact mem_values_concat (Or.inl (h.held k x P μ hx hμ))
  · obtain hg | hg := List.mem_append.mp hg
    · exact mem_values_concat (Or.inl (h.flying d g μ (hnet _ hg) hμ))
    · exact hsent d g μ hg hμ
  · by_cases hk : k = n
    · subst hk
      rw [put_nodes_self] at hx
      cases hx
      exact hown
    · rw [put_nodes_of_ne hk] at hx
      rw [getLast?_values_concat, hsets k hk, h.own k x hx]
      rfl

/-- **One event.** -/
theorem Grounded.next (h : Grounded C₀ ls C) (hsane : C.Sane) (hl : l.1.Honest)
    (hown : l.1.SetsOwn) (hs : C.next l = some C') : Grounded C₀ (ls ++ [l]) C' := by
  obtain ⟨n, action, w, w', net, hstep, hw, hw', hnet, hmem, rfl⟩ |
    ⟨hstep, hrestart, hnodes, hnet⟩ | ⟨n, config, w, hl', hname, hw, rfl⟩ := next_cases hs
  · have hwf := hsane.wf n w hw
    have ha := hsane.action hl hstep hmem
    have hsets := fun P => @sets_of_step l P n action hstep hown
    have hcases := Worker.step_dataOf hwf ha hw'
    refine h.put (fun P hP => (hsets P).1.trans ((hsets P).2 hP)) ?_ ?_ hnet ?_
    · intro P μ hμ
      obtain hold | ⟨g, rfl, rfl, -, hg⟩ := hcases P
      · rw [hold, Option.or_eq_some_iff, ← (hsets P).1] at hμ
        obtain hset | ⟨-, hknown⟩ := hμ
        · exact mem_values_concat (Or.inr hset)
        · exact mem_values_concat (Or.inl (h.held n w P μ hw hknown))
      · exact mem_values_concat (Or.inl (h.flying n g μ (hmem _ rfl) (hg.symm.trans hμ)))
    · obtain hold | ⟨g, -, -, hno, -⟩ := hcases n
      · rw [hold, getLast?_values_concat, (hsets n).1, h.own n w hw]
      · exact absurd (hsane.named n w hw).symm hno
    · intro d g μ hg hμ
      obtain hc | ⟨_, -, -, hp⟩ | ⟨m, -, hm, -, hp⟩ :=
        Worker.step_sent hwf ha (hsane.drained n w hw) hw' hg
      · cases hc
      · cases hp
      · cases hp
        refine mem_values_concat (Or.inl (h.held n w m.name μ hw ?_))
        rw [Members.dataOf_some hm]
        exact hμ
  · have hsets : ∀ P, l.1.sets P = none := by
      obtain ⟨event, env⟩ := l
      cases event with
      | act | deliver => cases hstep
      | lose | duplicate => exact fun _ => rfl
      | restart => cases hrestart
    refine ⟨fun n w P μ hw hμ => ?_, fun d g μ hg hμ => ?_, fun n w hw => ?_⟩
    · rw [hnodes] at hw
      exact mem_values_concat (Or.inl (h.held n w P μ hw hμ))
    · exact mem_values_concat (Or.inl (h.flying d g μ (hnet _ hg) hμ))
    · rw [hnodes] at hw
      rw [getLast?_values_concat, hsets n, h.own n w hw]
      rfl
  · have hsets : ∀ P, l.1.sets P = if P = n then some config.localMetadata else none := by
      intro P
      rw [hl']
      rfl
    have hknown : ∀ P, (Worker.init config l.2).members.dataOf P = l.1.sets P := by
      intro P
      rw [hsets P, ← hname]
      exact Members.dataOf_init config l.2 P
    refine h.put (fun P hP => (hsets P).trans (if_neg hP)) (fun P μ hμ => ?_) ?_ (fun _ hx => hx)
      (by rintro d g μ ⟨⟩)
    · exact mem_values_concat (Or.inr ((hknown P).symm.trans hμ))
    · rw [hknown n, getLast?_values_concat, hsets n, if_pos rfl]
      rfl

/-- **Metadata are never invented or crossed.** What a node holds for a member, and what gossip in
flight says of it, the process of that name has set for itself; and a running process holds for
itself what it set last. -/
theorem origins (C₀ C : Cluster) (h₀ : Initial C₀) (ls : List (Event × Env))
    (hr : run next C₀ ls = some C)
    (hg : Along next (fun _ l => l.1.Honest ∧ l.1.SetsOwn) C₀ ls) (P : Name) :
    (∀ n w m μ, C.nodes n = some w → w.members.members P = some m → m.metadataDict = some μ →
      μ ∈ values C₀ P ls) ∧
    (∀ d g μ, (d, .gossip g) ∈ C.net → g.name = P → g.metadata = some μ → μ ∈ values C₀ P ls) ∧
    ∀ w, C.nodes P = some w → w.localMember.metadataDict = (values C₀ P ls).getLast? := by
  obtain ⟨hsane, hgrounded⟩ : C.Sane ∧ Grounded C₀ ls C :=
    along_induction (R := fun ls C => C.Sane ∧ Grounded C₀ ls C)
      (fun _ _ _ _ ih hl hs => ⟨ih.1.next hl.1 hs, ih.2.next ih.1 hl.1 hl.2 hs⟩)
      ⟨h₀.sane, h₀.grounded⟩ hg hr
  refine ⟨fun n w m μ hw hm hμ => ?_, ?_, fun w hw => ?_⟩
  · exact hgrounded.held n w P μ hw ((Members.dataOf_some hm).trans hμ)
  · rintro d g μ hg rfl hμ
    exact hgrounded.flying d g μ hg hμ
  · have hlocal := (hsane.wf P w hw).localMember
    rw [hsane.named P w hw] at hlocal
    rw [← hgrounded.own P w hw, Members.dataOf_some hlocal]
    rfl

open Worker (nodeA still)

/-- `a` and `b` start, `a` chooses a colour and tells `b`, and starts again while `b` tells it. -/
def chosen : List (Event × Env) :=
  [(.act "a" (.update "a" none (some (colour 1))), still), (.act "a" (.disseminate "b"), still),
    (.deliver "b" (.gossip ⟨⟨"a", []⟩, "a", 2, .online, some (colour 1)⟩), still),
    (.restart "a" nodeA, still), (.act "b" (.disseminate "a"), still),
    (.deliver "a" (.gossip ⟨⟨"b", []⟩, "a", 2, .online, some (colour 1)⟩), still)]

theorem origins_chosen : ∃ C w m, run next pair chosen = some C ∧ C.nodes "b" = some w ∧
    w.members.members "a" = some m ∧ m.metadataDict = some (colour 1) ∧
    colour 1 ∈ values pair "a" chosen := by
  have hrun : ((run next pair chosen).bind fun C => (C.nodes "b").bind fun w =>
      (w.members.members "a").map Member.metadataDict) = some (some (colour 1)) := by
    decide +kernel
  obtain ⟨C, hC, hrun⟩ := Option.bind_eq_some_iff.mp hrun
  obtain ⟨w, hw, hrun⟩ := Option.bind_eq_some_iff.mp hrun
  obtain ⟨m, hm, hμ⟩ := Option.map_eq_some_iff.mp hrun
  have halong : Along next (fun _ l => l.1.Honest ∧ l.1.SetsOwn) pair chosen := by
    decide +kernel
  exact ⟨C, w, m, hC, hw, hm, hμ,
    (origins pair C pair_initial chosen hC halong "a").1 "b" w m _ hw hm hμ⟩

end Cluster

end Swim
