import Swim.Cluster
import Swim.Holding
import Swim.Rumor.Board

/-!
# Swim.Simulation

As long as no node restarts, a cluster is a board of rumors: what its nodes hold about each other
changes by the moves of `Rumor.Step`.

* `board` — the board a cluster shows. What each node has heard from each other is not in the
  cluster, so it is a parameter; `hear` says how an event adds to it.
* `move`  — the move an event makes.
* `simulates` — every event is a step of the board.
* `writes` — the entry an event writes is the one `_update` makes of the member found.
-/

namespace Swim

namespace Cluster

open Transition

def rumor (n : Name) (g : Gossip) : Rumor.Gossip Name Metadata Clock :=
  ⟨g.source.name, n, g.name, g.clock, g.metadata⟩

def receipt (n : Name) (a : GossipAck) : Rumor.Receipt Name Clock :=
  ⟨a.source.name, n, a.name, a.clock⟩

def clockOf (C : Cluster) (n m : Name) : Clock :=
  (C.nodes n).elim ⊥ fun w => w.members.clockOf m

def dataOf (C : Cluster) (n m : Name) : Option Metadata :=
  (C.nodes n).bind fun w => w.members.dataOf m

def board (C : Cluster) (heard : Name → Name → Option Int) :
    Rumor.Board Name Metadata Clock where
  clock := C.clockOf
  data := C.dataOf
  known := fun a b m =>
    (C.nodes a).bind fun w => (w.members.knownOf b m).map fun c : Int => (c : Clock)
  heard := fun a m => .ofOption (heard a m)
  gossips := {r | ∃ n g, (n, .gossip g) ∈ C.net ∧ r = rumor n g}
  receipts := {r | ∃ n a, (n, .gossipAck a) ∈ C.net ∧ r = receipt n a}

def moveOf (C' : Cluster) (n : Name) :
    Worker.Action → Rumor.Move Name Metadata Clock
  | .receive (.gossip g) => .take (rumor n g) (C'.clockOf n g.name) (C'.dataOf n g.name)
  | .receive (.gossipAck a) => .learn (receipt n a)
  | action =>
    match action.edit with
    | some (m, _, _) => .touch n m (C'.clockOf n m) (C'.dataOf n m)
    | none => .rest

def move (C' : Cluster) (event : Event) : Rumor.Move Name Metadata Clock :=
  match event.step with
  | some (n, action) => C'.moveOf n action
  | none => .rest

/-- What the nodes have heard after a step of `n`: it hears from `m` when it handles gossip of `m`
about itself. -/
def hearOf (n : Name) (action : Worker.Action) (heard : Name → Name → Option Int) (k m : Name) :
    Option Int :=
  match action with
  | .receive (.gossip g) =>
    if k = n ∧ m = g.name ∧ m = g.source.name then
      some ((heard k m).elim g.clock fun c => max c g.clock)
    else heard k m
  | _ => heard k m

def hear (event : Event) (heard : Name → Name → Option Int) : Name → Name → Option Int :=
  match event.step with
  | some (n, action) => hearOf n action heard
  | none => heard

variable {C C' : Cluster} {l : Event × Env} {n m : Name} {w w' : Worker}
  {net : List (Name × Packet)}

theorem clockOf_some (h : C.nodes n = some w) : C.clockOf n m = w.members.clockOf m := by
  rw [clockOf, h]; rfl

theorem dataOf_some (h : C.nodes n = some w) : C.dataOf n m = w.members.dataOf m := by
  rw [dataOf, h]; rfl

theorem put_clockOf_self : (({ C with net := net } : Cluster).put n w).clockOf n m =
    w.members.clockOf m := by
  rw [clockOf_some put_nodes_self]

theorem put_clockOf_of_ne {k : Name} (h : k ≠ n) :
    (({ C with net := net } : Cluster).put n w).clockOf k m = C.clockOf k m := by
  rw [clockOf, put_nodes_of_ne h]; rfl

theorem put_dataOf_self : (({ C with net := net } : Cluster).put n w).dataOf n m =
    w.members.dataOf m := by
  rw [dataOf_some put_nodes_self]

theorem put_dataOf_of_ne {k : Name} (h : k ≠ n) :
    (({ C with net := net } : Cluster).put n w).dataOf k m = C.dataOf k m := by
  rw [dataOf, put_nodes_of_ne h]; rfl

theorem board_known {heard : Name → Name → Option Int} {a b : Name} {k : Clock} :
    (C.board heard).known a b m = some k ↔
      ∃ w c, C.nodes a = some w ∧ w.members.knownOf b m = some c ∧ k = (c : Clock) := by
  simp only [board, Option.bind_eq_some_iff, Option.map_eq_some_iff]
  constructor
  · rintro ⟨w, hw, c, hc, rfl⟩
    exact ⟨w, c, hw, hc, rfl⟩
  · rintro ⟨w, c, hw, hc, rfl⟩
    exact ⟨w, hw, c, hc, rfl⟩

section MoveOf

variable {action : Worker.Action}

theorem moveOf_entry (c : Int) : (C'.moveOf n action).entry =
    (action.change c).map fun x => (n, x.1, C'.clockOf n x.1, C'.dataOf n x.1) := by
  cases action with
  | receive packet => cases packet <;> rfl
  | ping | pingReq | verdict | expire | disseminate | update => rfl

theorem moveOf_take {r : Rumor.Gossip Name Metadata Clock} {c : Clock}
    {d : Option Metadata} (h : C'.moveOf n action = .take r c d) :
    ∃ g, action = .receive (.gossip g) ∧ r = rumor n g := by
  cases action with
  | receive packet =>
    cases packet with
    | gossip g => cases h; exact ⟨g, rfl, rfl⟩
    | ping | pingReq | ack | gossipAck => cases h
  | ping | pingReq | verdict | expire | disseminate | update => cases h

theorem moveOf_learn {r : Rumor.Receipt Name Clock} (h : C'.moveOf n action = .learn r) :
    ∃ a, action = .receive (.gossipAck a) ∧ r = receipt n a := by
  cases action with
  | receive packet =>
    cases packet with
    | gossipAck a => cases h; exact ⟨a, rfl, rfl⟩
    | ping | pingReq | ack | gossip => cases h
  | ping | pingReq | verdict | expire | disseminate | update => cases h

theorem moveOf_learned {b : Name} {c : Int} (h : action.learned = some (b, m, c)) :
    C'.moveOf n action = .learn ⟨b, n, m, c⟩ := by
  cases action with
  | receive packet =>
    cases packet with
    | gossipAck a => cases h; rfl
    | ping | pingReq | ack | gossip => cases h
  | ping | pingReq | verdict | expire | disseminate | update => cases h

end MoveOf

theorem rumors_put {C : Cluster} {action : Worker.Action} {env : Env} (h : C.Sane)
    (hw : C.nodes n = some w) (ha : action.Honest) (hs : w.step action env = some w') :
    (∀ d g, (d, .gossip g) ∈ w'.sendQueue → g.source.name = n ∧
      (g.clock : Clock) = w'.members.clockOf g.name ∧
      g.metadata = w'.members.dataOf g.name ∧ g.metadata.isSome = true) ∧
    (∀ d a, (d, .gossipAck a) ∈ w'.sendQueue →
      ∃ g, action = .receive (.gossip g) ∧ receipt d a = (rumor n g).receipt) := by
  have hwf := h.wf n w hw
  have hname : w.localMember.source.name = n := by
    rw [← h.named n w hw]; exact hwf.localMember_name
  constructor
  · intro d g hg
    obtain hc | ⟨_, -, -, hp⟩ | ⟨m, rfl, hm, hknown, hp⟩ :=
      Worker.step_sent hwf ha (h.drained n w hw) hs hg
    · cases hc
    · cases hp
    · cases hp
      rw [Worker.step_disseminate hs]
      refine ⟨hname, (Members.clockOf_some hm).symm, (Members.dataOf_some hm).symm, ?_⟩
      obtain rfl | hknown := hknown
      · exact h.told n w hw
      · exact hknown
  · intro d a hd
    obtain hc | ⟨g, hact, rfl, hp⟩ | ⟨_, -, -, -, hp⟩ :=
      Worker.step_sent hwf ha (h.drained n w hw) hs hd
    · cases hc
    · cases hp
      refine ⟨g, hact, ?_⟩
      show Rumor.Receipt.mk w.localMember.source.name _ _ _ = _
      rw [hname]; rfl
    · cases hp

theorem ofOption_hearOf {action : Worker.Action} {g : Gossip} (h : action = .receive (.gossip g))
    (hname : m = g.name) (hsrc : m = g.source.name) (heard : Name → Name → Option Int) :
    Clock.ofOption (hearOf n action heard n m) = max (Clock.ofOption (heard n m)) g.clock := by
  subst h
  have hhear : hearOf n (.receive (.gossip g)) heard n m =
      some ((heard n m).elim g.clock fun c => max c g.clock) := if_pos ⟨rfl, hname, hsrc⟩
  rw [hhear]
  cases heard n m with
  | none => exact (max_eq_right bot_le).symm
  | some c => exact WithBot.coe_max c g.clock

theorem hearOf_cases {action : Worker.Action} (heard : Name → Name → Option Int) (k m : Name) :
    hearOf n action heard k m = heard k m ∨
      ∃ g, action = .receive (.gossip g) ∧ k = n ∧ m = g.name ∧ m = g.source.name := by
  cases action with
  | receive packet =>
    cases packet with
    | gossip g =>
      simp only [hearOf]
      split
      · rename_i hc
        exact Or.inr ⟨g, rfl, hc⟩
      · exact Or.inl rfl
    | ping | pingReq | ack | gossipAck => exact Or.inl rfl
  | ping | pingReq | verdict | expire | disseminate | update => exact Or.inl rfl

/-- The step of one node, seen on the board. -/
theorem simulates_step {action : Worker.Action} {env : Env} (h : C.Sane)
    (hw : C.nodes n = some w) (ha : action.Honest) (hs : w.step action env = some w')
    (hnet : ∀ x ∈ net, x ∈ C.net)
    (hmem : ∀ packet, action = .receive packet → (n, packet) ∈ C.net)
    (heard : Name → Name → Option Int)
    (hC' : C' = ({ C with net := net } : Cluster).put n w') :
    Rumor.Step (C.board heard) (C'.moveOf n action) (C'.board (hearOf n action heard)) := by
  have hshift := Worker.step_shift (h.wf n w hw) ha hs
  obtain ⟨hgossip, hack⟩ := rumors_put h hw ha hs
  have hentry := @moveOf_entry C' n action w.members.nextClock
  have hunwritten : ∀ m, (∀ c d, (C'.moveOf n action).entry ≠ some (n, m, c, d)) →
      (action.change w.members.nextClock).map Prod.fst ≠ some m := by
    intro m hno hwr
    obtain ⟨x, hx, rfl⟩ := Option.map_eq_some_iff.mp hwr
    exact hno _ _ (by rw [hentry, hx]; rfl)
  constructor
  case taken =>
    intro r c d hl
    obtain ⟨g, rfl, rfl⟩ := moveOf_take hl
    exact ⟨n, g, hmem _ rfl, rfl⟩
  case learned =>
    intro r hl
    obtain ⟨a, rfl, rfl⟩ := moveOf_learn hl
    exact ⟨n, a, hmem _ rfl, rfl⟩
  case kept =>
    intro k m hno
    show C.clockOf k m ≤ C'.clockOf k m ∧ C'.dataOf k m = C.dataOf k m
    by_cases hk : k = n
    · subst hk
      have hm := hunwritten m hno
      rw [hC', put_clockOf_self, put_dataOf_self, clockOf_some hw, dataOf_some hw]
      exact ⟨hshift.clock m hm, hshift.data m hm⟩
    · rw [hC', put_clockOf_of_ne hk, put_dataOf_of_ne hk]
      exact ⟨le_rfl, rfl⟩
  case written =>
    intro k m c d he
    rw [hentry] at he
    obtain ⟨x, -, hx⟩ := Option.map_eq_some_iff.mp he
    cases hx
    exact ⟨rfl, rfl⟩
  case heard =>
    intro k m
    obtain hold | ⟨g, hact, rfl, hname, hsrc⟩ := @hearOf_cases n action heard k m
    · exact Or.inl (congrArg Clock.ofOption hold)
    · have hhear := @ofOption_hearOf k m action g hact hname hsrc heard
      subst hact; subst hname
      exact Or.inr ⟨_, _, _, rfl, rfl, rfl, hsrc.symm, hhear⟩
  case hears =>
    intro r c d hl hsrc
    obtain ⟨g, rfl, rfl⟩ := moveOf_take hl
    exact ofOption_hearOf rfl rfl hsrc.symm heard
  case known =>
    intro k b m c hboard
    obtain ⟨w'', c, hw'', hc, rfl⟩ := board_known.mp hboard
    rw [hC'] at hw''
    by_cases hk : k = n
    · subst hk
      rw [put_nodes_self] at hw''
      cases hw''
      obtain hold | hnew := hshift.known b m c hc
      · exact Or.inl (board_known.mpr ⟨w, c, hw, hold, rfl⟩)
      · exact Or.inr (moveOf_learned hnew)
    · rw [put_nodes_of_ne hk] at hw''
      exact Or.inl (board_known.mpr ⟨w'', c, hw'', hc, rfl⟩)
  case gossips =>
    rintro _ ⟨d, g, hg, rfl⟩
    rw [hC'] at hg
    rcases List.mem_append.mp hg with hg | hg
    · exact Or.inl ⟨d, g, hnet _ hg, rfl⟩
    · obtain ⟨hsrc, hclock, hdata, hsome⟩ := hgossip d g hg
      refine Or.inr ⟨?_, ?_, hsome⟩
      · show (g.clock : Clock) = C'.clockOf g.source.name g.name
        rw [hC', hsrc, put_clockOf_self, hclock]
      · show g.metadata = C'.dataOf g.source.name g.name
        rw [hC', hsrc, put_dataOf_self, hdata]
  case receipts =>
    rintro _ ⟨d, a, hd, rfl⟩
    rw [hC'] at hd
    rcases List.mem_append.mp hd with hd | hd
    · exact Or.inl ⟨d, a, hnet _ hd, rfl⟩
    · obtain ⟨g, rfl, hreceipt⟩ := hack d a hd
      exact Or.inr ⟨rumor n g, _, _, rfl, hreceipt⟩

/-- **Simulation.** An event is a step of the board, unless a node restarts. -/
theorem simulates (h : C.Sane) (hl : l.1.Honest) (hr : l.1.isRestart = false)
    (hs : C.next l = some C') (heard : Name → Name → Option Int) :
    Rumor.Step (C.board heard) (C'.move l.1) (C'.board (hear l.1 heard)) := by
  obtain ⟨n, action, w, w', net, hstep, hw, hw', hnet, hmem, hC'⟩ | ⟨hstep, hnodes, hnet⟩ :=
    steady_cases hr hs
  · have hsim := simulates_step h hw (h.action hl hstep hmem) hw' hnet hmem heard hC'
    rw [move, hear, hstep]; exact hsim
  · have hmove : C'.move l.1 = .rest := by rw [move, hstep]
    have hhear : hear l.1 heard = heard := by rw [hear, hstep]
    rw [hmove, hhear]
    refine Rumor.Step.rest ?_ ?_ ?_ rfl ?_ ?_
    · funext k m
      show C'.clockOf k m = C.clockOf k m
      rw [clockOf, clockOf, hnodes]
    · funext k m
      show C'.dataOf k m = C.dataOf k m
      rw [dataOf, dataOf, hnodes]
    · simp only [board, hnodes]
    · rintro _ ⟨d, g, hg, rfl⟩
      exact ⟨d, g, hnet _ hg, rfl⟩
    · rintro _ ⟨d, a, ha, rfl⟩
      exact ⟨d, a, hnet _ ha, rfl⟩

/-! ## What an event writes -/

/-- `x` is what a call of `_update` makes of the member that `f` is, with the arguments an action
of a node passes on. -/
structure Writes (C : Cluster) (l : Event × Env) (n m : Name) (w : Worker)
    (action : Worker.Action) (src : Option Member) (clock : Int) (status : Option Status)
    (metadata : Option Metadata) : Prop where
  step : l.1.step = some (n, action)
  node : C.nodes n = some w
  change : action.change w.members.nextClock =
    some (m, src.map Member.name, clock, status, metadata)

/-- **The entry an event writes.** -/
theorem writes (h : C.Sane) (hl : l.1.Honest) (hs : C.next l = some C') {c : Clock}
    {d : Option Metadata} (he : (C'.move l.1).entry = some (n, m, c, d)) :
    ∃ w action src clock status metadata, C.Writes l n m w action src clock status metadata ∧
      let x := (w.members.found m l.2).applied src clock w.members.nextClock status metadata l.2.now
      c = (x.clock : Clock) ∧ d = x.metadataDict := by
  obtain ⟨k, action, w, w', net, hstep, hw, hw', -, hmem, rfl⟩ | ⟨hstep, -⟩ |
    ⟨_, _, _, hrestart, -⟩ := next_cases hs
  · rw [move, hstep] at he
    dsimp only at he
    rw [moveOf_entry w.members.nextClock] at he
    obtain ⟨⟨m', source, clock, status, metadata⟩, hchange, heq⟩ := Option.map_eq_some_iff.mp he
    cases heq
    obtain ⟨src, x, hsrc, hx, hsame⟩ :=
      Worker.step_applied (h.wf _ w hw) (h.action hl hstep hmem) hw' hchange
    refine ⟨w, action, src, clock, status, metadata, ⟨hstep, hw, by rw [hsrc]; exact hchange⟩, ?_⟩
    rw [put_clockOf_self, put_dataOf_self, Members.clockOf_some hx, Members.dataOf_some hx,
      hsame.clock, hsame.metadataDict]
    exact ⟨rfl, rfl⟩
  · rw [move, hstep] at he; cases he
  · rw [move, hrestart] at he; cases he

theorem deliver_of_step {packet : Packet} (hs : C.next l = some C')
    (hstep : l.1.step = some (n, .receive packet)) : l.1 = .deliver n packet := by
  obtain ⟨event, env⟩ := l
  cases event with
  | act k action => cases hstep; cases hs
  | deliver k p => cases hstep; rfl
  | lose | duplicate | restart => cases hstep

theorem takes (h : C.Sane) (hl : l.1.Honest) (hs : C.next l = some C')
    {r : Rumor.Gossip Name Metadata Clock} {c : Clock} {d : Option Metadata}
    (ht : C'.move l.1 = .take r c d) :
    ∃ n g w src, l.1 = .deliver n (.gossip g) ∧ r = rumor n g ∧ C.nodes n = some w ∧
      src.name = g.source.name ∧
      let x := (w.members.found g.name l.2).applied (some src) g.clock w.members.nextClock
        (some g.status) g.metadata l.2.now
      c = (x.clock : Clock) ∧ d = x.metadataDict := by
  have he : (C'.move l.1).entry = some (r.receiver, r.about, c, d) := by rw [ht]; rfl
  obtain ⟨w, action, src, clock, status, metadata, hwr, hx⟩ := writes h hl hs he
  have hmove : C'.moveOf r.receiver action = .take r c d := by rw [← ht, move, hwr.step]
  obtain ⟨g, rfl, hr⟩ := moveOf_take hmove
  have hchange := hwr.change
  simp only [Worker.Action.change, Option.some.injEq, Prod.mk.injEq] at hchange
  obtain ⟨hname, hsrc, rfl, rfl, rfl⟩ := hchange
  obtain ⟨s, rfl, hsname⟩ := Option.map_eq_some_iff.mp hsrc.symm
  rw [← hname] at hx
  exact ⟨_, g, w, s, deliver_of_step hs hwr.step, hr, hwr.node, hsname, hx⟩

theorem touches (h : C.Sane) (hl : l.1.Honest) (hs : C.next l = some C') {c : Clock}
    {d : Option Metadata} (ht : C'.move l.1 = .touch n m c d) :
    ∃ w action status metadata, l.1 = .act n action ∧ C.nodes n = some w ∧
      action.edit = some (m, status, metadata) ∧
      let x := (w.members.found m l.2).applied none w.members.nextClock w.members.nextClock
        status metadata l.2.now
      c = (x.clock : Clock) ∧ d = x.metadataDict := by
  have he : (C'.move l.1).entry = some (n, m, c, d) := by rw [ht]; rfl
  obtain ⟨w, action, src, clock, status, metadata, hwr, hx⟩ := writes h hl hs he
  have hmove : C'.moveOf n action = .touch n m c d := by rw [← ht, move, hwr.step]
  have hne : ∀ packet, action ≠ .receive packet := by
    rintro packet rfl
    cases packet <;> cases hmove
  have hact : l.1 = .act n action := by
    obtain ⟨event, env⟩ := l
    have hstep := hwr.step
    cases event with
    | act k a => cases hstep; rfl
    | deliver k p => cases hstep; exact absurd rfl (hne p)
    | lose | duplicate | restart => cases hstep
  have hchange := hwr.change
  cases action with
  | receive packet => exact absurd rfl (hne packet)
  | ping | pingReq | disseminate => cases hchange
  | verdict | expire | update =>
    simp only [Worker.Action.change, Worker.Action.edit, Option.map_some, Option.some.injEq,
      Prod.mk.injEq] at hchange
    obtain ⟨rfl, hsrc, rfl, rfl, rfl⟩ := hchange
    rw [Option.map_eq_none_iff.mp hsrc.symm] at hx
    exact ⟨w, _, _, _, hact, hwr.node, rfl, hx⟩

theorem Sane.found_settled (h : C.Sane) (hw : C.nodes n = some w) (m : Name) (env : Env) :
    (w.members.found m env).Settled w.members.nextClock := (h.wf n w hw).found_settled

theorem monotone (h : C.Sane) (hl : l.1.Honest) (hs : C.next l = some C')
    (heard : Name → Name → Option Int) : Rumor.Monotone (C.board heard) (C'.move l.1) := by
  intro n m c d he
  obtain ⟨w, action, src, clock, status, metadata, hwr, hc, -⟩ := writes h hl hs he
  have hset := h.found_settled hwr.node m l.2
  show C.clockOf n m ≤ c
  rw [clockOf_some hwr.node, hc]
  exact le_trans Members.clockOf_le_found
    (WithBot.coe_le_coe.mpr (Member.le_applied_clock hset.below))

end Cluster

end Swim
