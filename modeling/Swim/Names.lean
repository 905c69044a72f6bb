import Swim.Network
import Swim.Turns

/-!
# Swim.Names

No name is invented: the members of every table, those that wait for others, and the names in the
packets in flight are those of a configuration.

* `Packet.names`, `Members.Within` — the names a packet tells, and a table of certain names only.
* `Worker.step_within` — a step of a worker that is told such names keeps to them, in what it sends
  too.
* `Loop.next_within` — the members a check asks for help come from the table.
* `names_known` — over runs of a network, restarts included.
-/

namespace Swim

open Transition

def Packet.names : Packet → List Name
  | ping source | ack source => [source.name]
  | pingReq source target => [source.name, target]
  | gossip g => [g.source.name, g.name]
  | gossipAck a => [a.source.name, a.name]

theorem Packet.source_mem_names (packet : Packet) : packet.source.name ∈ packet.names := by
  cases packet <;> exact List.mem_cons_self

structure Config.Within (config : Config) (P : Name → Prop) : Prop where
  localName : P config.localName
  peers : ∀ n ∈ config.peers, P n

variable {P : Name → Prop}

namespace Members

def Within (M : Members) (P : Name → Prop) : Prop := ∀ n m, M.members n = some m → P n

variable {M M' : Members} {k name : Name} {m : Member} {source : Option Member} {clock : Int}
  {status : Option Status} {metadata : Option Metadata} {validity : Option Bytes} {packet : Packet}
  {env : Env}

theorem Within.write {x : Option Member} (h : M.Within P) (hk : P k)
    (hmem : M'.members = Function.update M.members k x) : M'.Within P := by
  intro n m hm
  by_cases hn : n = k
  · rw [hn]
    exact hk
  · rw [hmem, Function.update_of_ne hn] at hm
    exact h n m hm

theorem Within.get (h : M.Within P) (hM : M.Keyed) (hname : P name) :
    (M.get name validity env).1.Within P := by
  intro n m hm
  by_cases hn : n = name
  · rw [hn]
    exact hname
  · rw [hM.get_of_ne hn] at hm
    exact h n m hm

theorem Within._update (h : M.Within P) (hm : P m.name) :
    (M._update m source clock status metadata env).after.Within P := by
  obtain ⟨m', hkept, ⟨-, hM⟩ | ⟨-, hM⟩ | hM⟩ := _update_after M m source clock status metadata env
  · rw [hM]
    exact h.write hm (by rw [put, hkept.name])
  · rw [hM]
    exact h.write hm (by rw [commit_members, hkept.name])
  · rw [hM]
    exact h.write hm (by rw [commit_members, hkept.name])

theorem Within.looked (h : M.Within P) (hM : M.Keyed) (hp : ∀ n ∈ packet.names, P n)
    (hname : P name) : (M.looked packet name env).1.Within P :=
  Within.get (Within.get h hM (hp _ packet.source_mem_names)) hM.met.1 hname

theorem Within.handled (h : M.Within P) (hM : M.Keyed) (hp : ∀ n ∈ packet.names, P n) :
    (M.handled packet env).after.Within P := by
  cases packet with
  | ping | ack => exact h.get hM (hp _ List.mem_cons_self)
  | pingReq s target => exact h.looked hM hp (hp target (by simp [Packet.names]))
  | gossip g =>
    have hname : P g.name := hp _ (by simp [Packet.names])
    have hmember : P (M.looked (.gossip g) g.name env).2.name := by
      rw [(@Keyed.looked M (.gossip g) g.name env hM).2.2.2.1]
      exact hname
    exact Within._update (h.looked hM hp hname) hmember
  | gossipAck a =>
    have hname : P a.name := hp _ (by simp [Packet.names])
    have hlooked : (M.looked (.gossipAck a) a.name env).1.Within P := h.looked hM hp hname
    have hsource : (M.met (.gossipAck a) env).2.name = a.source.name :=
      (@Keyed.met M (.gossipAck a) env hM).2.2.2
    simp only [Members.handled]
    by_cases hc : a.clock ≤ (M.looked (.gossipAck a) a.name env).1.nextClock
    · rw [ackGossip_ok hc]
      refine hlooked.write (k := (M.met (.gossipAck a) env).2.name) ?_ rfl
      rw [hsource]
      exact hp _ List.mem_cons_self
    · rw [ackGossip_error hc]
      exact hlooked

theorem within_init {config : Config} (h : config.Within P) : (init config env).after.Within P := by
  obtain ⟨M, hM, -, -, -, -, -, hnames⟩ := init_ok config env
  intro n m hm
  rw [hM, Py.after_ok] at hm
  obtain hn | rfl := (hnames n).mp (by rw [hm]; rfl)
  · exact h.peers n hn
  · exact h.localName

end Members

namespace Worker

variable {w w' : Worker} {action : Action} {env : Env} {packet : Packet}

/-- The table, and those that wait for others. -/
structure Within (w : Worker) (P : Name → Prop) : Prop where
  members : w.members.Within P
  listening : ∀ t k, k ∈ w.listening t → P k

def Action.Told (P : Name → Prop) : Action → Prop
  | receive packet => ∀ n ∈ packet.names, P n
  | pingReq _ indirects => ∀ n ∈ indirects, P n
  | ping _ | verdict _ _ | expire _ | disseminate _ | update _ _ _ => True

def Keeps (P : Name → Prop) (x : Name × Packet) : Prop := P x.1 ∧ ∀ n ∈ x.2.names, P n

theorem Within.localSource (h : w.Within P) (hw : w.members.Keyed) :
    P w.localMember.source.name := by
  have hlocal := h.members _ _ hw.localMember
  rwa [← hw.localMember_name] at hlocal

theorem Within.relayed (h : w.Within P) (hw : w.members.Keyed) (hp : ∀ n ∈ packet.names, P n) :
    ∀ x ∈ w.relayed packet env, Keeps P x := by
  intro x hx
  obtain ⟨target, ht, rfl⟩ := List.mem_map.mp hx
  refine ⟨h.listening _ _ ht, fun n hn => ?_⟩
  have hname : (w.members.met packet env).2.name = packet.source.name :=
    (@Members.Keyed.met w.members packet env hw).2.2.2
  rw [List.mem_singleton.mp hn, Member.source, hname]
  exact hp _ packet.source_mem_names

theorem Within.reply (h : w.Within P) (hw : w.members.Keyed) (hp : ∀ n ∈ packet.names, P n) :
    ∀ x ∈ w.reply packet, Keeps P x := by
  have hlocal := h.localSource hw
  intro x hx
  cases packet with
  | ping source =>
    rw [List.mem_singleton.mp hx]
    exact ⟨hp _ List.mem_cons_self, by simpa [Packet.names] using hlocal⟩
  | pingReq source target =>
    rw [List.mem_singleton.mp hx]
    exact ⟨hp target (by simp [Packet.names]), by simpa [Packet.names] using hlocal⟩
  | gossip g =>
    rw [List.mem_singleton.mp hx]
    refine ⟨hp _ List.mem_cons_self, ?_⟩
    simpa [Packet.names, gossipReply] using ⟨hlocal, hp g.name (by simp [Packet.names])⟩
  | ack | gossipAck => cases hx

theorem Within.outgoing (h : w.Within P) (hw : w.members.Wf) (ha : action.Told P)
    (hs : w.step action env = some w') : ∀ x ∈ w.outgoing action, Keeps P x := by
  have hlocal := h.localSource hw.toKeyed
  intro x hx
  cases action with
  | ping target =>
    obtain ⟨m, hm, -⟩ := Option.map_eq_some_iff.mp hs
    rw [List.mem_singleton.mp hx]
    exact ⟨h.members _ _ (peer_eq_some.mp hm).1, by simpa [Packet.names] using hlocal⟩
  | pingReq target indirects =>
    obtain ⟨m, hm, -⟩ := Option.map_eq_some_iff.mp hs
    obtain ⟨indirect, hi, rfl⟩ := List.mem_map.mp hx
    refine ⟨ha indirect hi, ?_⟩
    simpa [Packet.names] using ⟨hlocal, h.members _ _ (peer_eq_some.mp hm).1⟩
  | disseminate target =>
    obtain ⟨m, hm, -⟩ := Option.map_eq_some_iff.mp hs
    rw [Worker.outgoing, hm] at hx
    obtain ⟨member, hg, rfl⟩ := List.mem_map.mp hx
    have htarget := (peer_eq_some.mp hm).1
    refine ⟨?_, ?_⟩
    · rw [hw.name _ _ htarget]
      exact h.members _ _ htarget
    · simpa [Packet.names, buildGossip] using
        ⟨hlocal, h.members _ _ (hw.mem_getGossip.mp hg).1⟩
  | receive | verdict | expire | update => cases hx

theorem Within.listeningAfter (h : w.Within P) (hp : ∀ n ∈ packet.names, P n) (t k : Name)
    (hk : k ∈ listeningAfter packet w.listening t) : P k := by
  have hold : ∀ {t}, k ∈ Function.update w.listening packet.source.name [] t → P k := by
    intro t hk
    by_cases ht : t = packet.source.name
    · rw [ht, Function.update_self] at hk
      cases hk
    · rw [Function.update_of_ne ht] at hk
      exact h.listening t k hk
  cases packet with
  | pingReq source target =>
    simp only [Worker.listeningAfter] at hk
    split at hk
    · exact hold hk
    · by_cases ht : t = target
      · rw [ht, Function.update_self] at hk
        obtain hk | hk := List.mem_append.mp hk
        · exact hold hk
        · rw [List.mem_singleton.mp hk]
          exact hp _ List.mem_cons_self
      · rw [Function.update_of_ne ht] at hk
        exact hold hk
  | ping | ack | gossip | gossipAck => exact hold hk

/-- **A step keeps to the names it is told.** -/
theorem step_within (hw : w.members.Wf) (ha : action.Honest) (h : w.Within P)
    (ht : action.Told P) (hs : w.step action env = some w') :
    w'.Within P ∧ ∀ x ∈ w'.sendQueue, x ∈ w.sendQueue ∨ Keeps P x := by
  obtain ⟨packet, rfl, -, rfl⟩ | ⟨name, status, metadata, m, M', -, -, hm, -, -, hM', rfl⟩ |
    ⟨-, -, rfl⟩ := step_cases hw ha hs
  · refine ⟨⟨?_, ?_⟩, fun x hx => ?_⟩
    · rw [receive_members hw.toKeyed]
      exact h.members.handled hw.toKeyed ht
    · rw [receive_eq hw.toKeyed]
      exact h.listeningAfter ht
    · rw [receive_sendQueue hw ha, List.append_assoc] at hx
      obtain hx | hx := List.mem_append.mp hx
      · exact Or.inl hx
      · obtain hx | hx := List.mem_append.mp hx
        · exact Or.inr (h.relayed hw.toKeyed ht x hx)
        · exact Or.inr (h.reply hw.toKeyed ht x hx)
  · refine ⟨⟨?_, h.listening⟩, fun x hx => Or.inl hx⟩
    have hname : P m.name := by
      rw [hw.name _ _ hm]
      exact h.members _ _ hm
    have hafter : (w.members.update m status metadata env).after.Within P := h.members._update hname
    rwa [hM', Py.after_ok] at hafter
  · refine ⟨⟨h.members, h.listening⟩, fun x hx => ?_⟩
    obtain hx | hx := List.mem_append.mp hx
    · exact Or.inl hx
    · exact Or.inr (h.outgoing hw ht hs x hx)

end Worker

namespace Loop

variable {L L' : Loop} {l : Turn × Env} {id : CheckId}

/-- The worker, and the members that checks are going to ask for help. -/
structure Within (L : Loop) (P : Name → Prop) : Prop where
  worker : L.worker.Within P
  sending : ∀ id target indirects, L.checks id = some ⟨target, .sending indirects⟩ →
    ∀ n ∈ indirects, P n

theorem next_sending (hs : L.next l = some L') {target : Name} {indirects : Finset Name}
    (hc : L'.checks id = some ⟨target, .sending indirects⟩) :
    (∃ t before, L.checks id = some ⟨t, .sending before⟩ ∧ indirects ⊆ before) ∨
    ∃ count exclude draws,
      L.worker.members.find count .available exclude draws = some (.ok indirects) := by
  have hself : ∀ {k : CheckId} {c : Check} {M : Loop}, M.checks = L.checks →
      (M.put k c).checks id = some ⟨target, .sending indirects⟩ →
        k = id ∧ c = ⟨target, .sending indirects⟩ ∨
          L.checks id = some ⟨target, .sending indirects⟩ := by
    intro k c M hM hput
    by_cases hk : id = k
    · subst hk
      rw [put_checks_self] at hput
      exact Or.inl ⟨rfl, Option.some.inj hput⟩
    · rw [put_checks_of_ne _ _ hk, hM] at hput
      exact Or.inr hput
  have hstays : L.checks id = some ⟨target, .sending indirects⟩ →
      ∃ t before, L.checks id = some ⟨t, .sending before⟩ ∧ indirects ⊆ before :=
    fun hold => ⟨target, indirects, hold, Finset.Subset.refl _⟩
  have hno : ∀ {k : CheckId} {c : Check} {M : Loop}, M.checks = L.checks →
      c ≠ ⟨target, .sending indirects⟩ →
      (M.put k c).checks id = some ⟨target, .sending indirects⟩ →
      ∃ t before, L.checks id = some ⟨t, .sending before⟩ ∧ indirects ⊆ before := by
    intro k c M hM hne hput
    obtain ⟨-, heq⟩ | hold := hself hM hput
    · exact absurd heq hne
    · exact hstays hold
  obtain ⟨turn, env⟩ := l
  cases turn with
  | check k t =>
    simp only [next] at hs
    split at hs
    · obtain ⟨m, -, rfl⟩ := Option.map_eq_some_iff.mp hs
      exact Or.inl (hno rfl (by simp) hc)
    · cases hs
  | wake k draws =>
    obtain ⟨⟨t, phase⟩, -, hs⟩ := Option.bind_eq_some_iff.mp hs
    obtain ⟨m, -, hs⟩ := Option.bind_eq_some_iff.mp hs
    cases phase with
    | ping event =>
      simp only [wake, indirect] at hs
      split at hs
      · cases hs
        exact Or.inl (hno rfl (by simp) hc)
      · split at hs
        · cases hs
        · cases hs
          exact Or.inl (hno rfl (by simp) hc)
        · rename_i found hfind
          split at hs
          · cases hs
            exact Or.inl (hno rfl (by simp) hc)
          · cases hs
            obtain ⟨-, heq⟩ | hold := hself rfl hc
            · cases heq
              exact Or.inr ⟨_, _, draws, hfind⟩
            · exact Or.inl (hstays hold)
    | sending before =>
      simp only [wake] at hs
      split at hs
      · cases hs
        exact Or.inl (hno rfl (by simp) hc)
      · cases hs
    | pingReq event =>
      cases hs
      exact Or.inl (hno rfl (by simp) hc)
    | done | raised => cases hs
  | send k indirect =>
    obtain ⟨⟨t, phase⟩, hk, hs⟩ := Option.bind_eq_some_iff.mp hs
    cases phase with
    | sending before =>
      simp only [send] at hs
      split at hs
      · cases hs
        obtain ⟨rfl, heq⟩ | hold := hself rfl hc
        · cases heq
          exact Or.inl ⟨_, before, hk, Finset.erase_subset _ _⟩
        · exact Or.inl (hstays hold)
      · cases hs
    | ping | pingReq | done | raised => cases hs
  | other action =>
    simp only [next] at hs
    split at hs
    · obtain ⟨w, -, rfl⟩ := Option.map_eq_some_iff.mp hs
      exact Or.inl (hstays hc)
    · cases hs

theorem next_send {indirect : Name} {env : Env} (hs : L.next (.send id indirect, env) = some L') :
    ∃ target indirects, L.checks id = some ⟨target, .sending indirects⟩ ∧
      indirect ∈ indirects := by
  obtain ⟨⟨target, phase⟩, hc, hs⟩ := Option.bind_eq_some_iff.mp hs
  cases phase with
  | sending indirects =>
    simp only [send] at hs
    split at hs
    · rename_i hmem
      exact ⟨target, indirects, hc, hmem⟩
    · cases hs
  | ping | pingReq | done | raised => cases hs

theorem found_within (h : L.worker.members.Drawn) (hw : L.worker.members.Within P) {count : Nat}
    {status : Status} {exclude : Finset Name} {draws : List Nat} {found : Finset Name}
    (hf : L.worker.members.find count status exclude draws = some (.ok found)) :
    ∀ n ∈ found, P n := by
  intro n hn
  have hsub := (Members.findLoop_ok hf (by simp)).1
  rw [Finset.empty_union] at hsub
  obtain ⟨m, hm, -⟩ := h.others status n (hsub hn)
  exact hw n m hm

/-- **A turn keeps to the names it is told.** -/
theorem next_within (hL : L.Sound) (hd : L.worker.members.Drawn) (hl : l.1.Honest)
    (h : L.Within P) (ht : ∀ packet, l.1 = .other (.receive packet) → ∀ n ∈ packet.names, P n)
    (hs : L.next l = some L') :
    L'.Within P ∧ ∀ x ∈ L'.worker.sendQueue, x ∈ L.worker.sendQueue ∨ Worker.Keeps P x := by
  have hforget : L.worker.forget.Within P := ⟨h.worker.members, h.worker.listening⟩
  have hworker : L'.worker.Within P ∧
      ∀ x ∈ L'.worker.sendQueue, x ∈ L.worker.sendQueue ∨ Worker.Keeps P x := by
    obtain heq | ⟨action, hmakes, hstep⟩ := next_makes hL hs
    · have hkept : L'.worker.forget.Within P ∧ ∀ x ∈ L'.worker.forget.sendQueue,
          x ∈ L.worker.sendQueue ∨ Worker.Keeps P x := by
        rw [heq]
        exact ⟨hforget, fun x hx => Or.inl hx⟩
      exact ⟨⟨hkept.1.members, hkept.1.listening⟩, hkept.2⟩
    · have htold : action.Told P := by
        obtain ⟨turn, env⟩ := l
        cases turn with
        | check => cases hmakes; trivial
        | wake =>
          obtain ⟨check, online, -, rfl, -⟩ := hmakes
          trivial
        | send id indirect =>
          obtain ⟨check, -, rfl⟩ := hmakes
          obtain ⟨target, indirects, hc, hmem⟩ := next_send hs
          intro n hn
          rw [List.mem_singleton.mp hn]
          exact h.sending id target indirects hc indirect hmem
        | other own =>
          cases hmakes
          cases action with
          | receive packet => exact ht packet rfl
          | pingReq => cases hs
          | ping | verdict | expire | disseminate | update => trivial
      obtain ⟨hw, hsent⟩ :=
        Worker.step_within (w := L.worker.forget) hL.wf (hmakes.honest hl) hforget htold hstep
      exact ⟨⟨hw.members, hw.listening⟩, hsent⟩
  refine ⟨⟨hworker.1, fun id target indirects hc n hn => ?_⟩, hworker.2⟩
  obtain ⟨t, before, hold, hsub⟩ | ⟨count, exclude, draws, hf⟩ := next_sending hs hc
  · exact h.sending id t before hold n (hsub hn)
  · exact found_within hd h.worker.members hf n hn

end Loop

namespace Network

def Event.Configured (P : Name → Prop) : Event → Prop
  | restart _ config => config.Within P
  | turn _ _ | deliver _ _ | lose _ _ | duplicate _ _ => True

/-- The event loops and the packets in flight know names in `P` only. -/
structure Within (P : Name → Prop) (N : Network) : Prop where
  nodes : ∀ n L, N.nodes n = some L → L.Within P
  net : ∀ d p, (d, p) ∈ N.net → P d ∧ ∀ n ∈ p.names, P n

structure Roster (P : Name → Prop) (N : Network) : Prop where
  sane : N.Sane
  drawn : ∀ n L, N.nodes n = some L → L.worker.members.Drawn
  within : N.Within P

variable {N N' : Network} {l : Event × Env} {n : Name} {L : Loop}

theorem within_start {config : Config} (h : config.Within P) (env : Env) :
    (Loop.start config env).Within P ∧ (Loop.start config env).worker.members.Drawn := by
  refine ⟨⟨⟨Members.within_init h, ?_⟩, ?_⟩, Members.drawn_init config env⟩
  · intro t k hk
    cases hk
  · rintro id target indirects ⟨⟩

theorem Roster.put (h : N.Roster P) {net : List (Name × Packet)} (hnet : ∀ x ∈ net, x ∈ N.net)
    (hsane : (({ N with net := net } : Network).put n L).Sane) (hd : L.worker.members.Drawn)
    (hL : L.Within P) (hsent : ∀ x ∈ L.worker.sendQueue, Worker.Keeps P x) :
    (({ N with net := net } : Network).put n L).Roster P := by
  have hcases : ∀ {k K}, (({ N with net := net } : Network).put n L).nodes k = some K →
      k = n ∧ K = { L with worker := { L.worker with sendQueue := [] } } ∨
        N.nodes k = some K := by
    intro k K hK
    by_cases hk : k = n
    · subst hk
      rw [put_nodes_self] at hK
      exact Or.inl ⟨rfl, (Option.some.inj hK).symm⟩
    · rw [put_nodes_of_ne hk] at hK
      exact Or.inr hK
  refine ⟨hsane, fun k K hK => ?_, ⟨fun k K hK => ?_, fun d p hp => ?_⟩⟩
  · obtain ⟨-, rfl⟩ | hK := hcases hK
    · exact hd
    · exact h.drawn k K hK
  · obtain ⟨-, rfl⟩ | hK := hcases hK
    · exact ⟨⟨hL.worker.members, hL.worker.listening⟩, hL.sending⟩
    · exact h.within.nodes k K hK
  · obtain hp | hp := List.mem_append.mp hp
    · exact h.within.net d p (hnet _ hp)
    · exact hsent _ hp

theorem Roster.next (h : N.Roster P) (hl : l.1.Honest) (hconf : l.1.Configured P)
    (hs : N.next l = some N') : N'.Roster P := by
  have hsane := h.sane.next hl hs
  obtain ⟨n, t, L, L', net, hstep, hL, hL', hnet, hmem, rfl⟩ | ⟨-, -, hnodes, hnet⟩ |
    ⟨n, config, L, hrestart, -, -, rfl⟩ := next_cases hs
  · have hd := h.drawn n L hL
    have htold : ∀ packet, t = .other (.receive packet) → ∀ n ∈ packet.names, P n :=
      fun packet ht => (h.within.net n packet (hmem packet ht)).2
    obtain ⟨hw, hsent⟩ := Loop.next_within (h.sane.sound n L hL) hd (h.sane.turn hl hstep hmem)
      (h.within.nodes n L hL) htold hL'
    have hq : L.worker.sendQueue = [] :=
      h.sane.cluster.drained n L.worker.forget (forget_some hL)
    refine h.put hnet hsane (Loop.next_drawn hd hL').1 hw fun x hx => ?_
    obtain hx | hx := hsent x hx
    · rw [hq] at hx
      cases hx
    · exact hx
  · refine ⟨hsane, ?_, ?_, fun d p hp => h.within.net d p (hnet _ hp)⟩
    · rw [hnodes]
      exact h.drawn
    · rw [hnodes]
      exact h.within.nodes
  · simp only [hrestart, Event.Configured] at hconf
    obtain ⟨hw, hd⟩ := within_start hconf l.2
    refine h.put (fun _ hx => hx) hsane hd hw ?_
    intro x hx
    cases hx

theorem Initial.roster (h : Initial N)
    (hconf : ∀ n L, N.nodes n = some L → L.worker.config.Within P) : N.Roster P := by
  refine ⟨h.sane, fun n L hL => ?_, ⟨fun n L hL => ?_, fun d p hp => ?_⟩⟩
  · obtain ⟨config, env, -, rfl⟩ := h.nodes n L hL
    exact Members.drawn_init config env
  · obtain ⟨config, env, -, rfl⟩ := h.nodes n L hL
    exact (within_start (hconf n _ hL) env).1
  · rw [h.net] at hp
    cases hp

open Worker (nodeA still)
open Cluster (nodeB)

end Network

end Swim
