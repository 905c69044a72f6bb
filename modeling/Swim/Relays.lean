import Swim.Stale

/-!
# Swim.Relays

A node that is asked to ping a member answers the requester when it next hears from the member.

* `Waits`         — a requester has asked for a member since the last packet from that member.
* `listening_run` — the listening table holds exactly these requesters, each once.
* `acksFor`       — the acknowledgements in a queue on behalf of a member.
* `relays_exactly` — in every run, each packet from a member makes the node queue one of them for
  each requester that waits, and nothing else does.
-/

namespace Swim

open Transition

namespace Members

variable {M M' : Members} {packet : Packet} {env : Env}

theorem Keyed.step_localName (h : M.Keyed) {l : Op × Env} (hs : M.step l = some M') :
    M'.localName = M.localName := by
  obtain ⟨name, validity, rfl⟩ | ⟨m, source, clock, status, metadata, -, rfl⟩ |
    ⟨member, source, clock, -, rfl⟩ := step_inv h hs
  · exact get_localName
  · obtain ⟨m', -, ⟨-, hM⟩ | ⟨-, hM⟩ | hM⟩ := _update_after M m source clock status metadata l.2
    all_goals rw [hM]
    · rfl
    · exact commit_localName
    · exact commit_localName
  · by_cases hc : clock ≤ M.nextClock
    · rw [ackGossip_ok hc]; rfl
    · rw [ackGossip_error hc]; rfl

theorem Ordered.run_localName (h : M.Ordered) {ls : List (Op × Env)}
    (hrun : run Members.step M ls = some M') : M'.localName = M.localName :=
  ((always_of_along (P := fun M' => M'.Ordered ∧ M'.localName = M.localName) ⟨h, rfl⟩
    (along_true _ ls) fun _ _ _ h' _ hs =>
      ⟨h'.1.step hs, (h'.1.keyed.step_localName hs).trans h'.2⟩).last hrun).2

theorem Keyed.handled_source (h : M.Keyed) :
    ((M.handled packet env).after.members packet.source.name).map Member.source =
      some (M.met packet env).2.source := by
  have hmet := @Keyed.met M packet env h
  have hkeep : ∀ name, (M.looked packet name env).1.members packet.source.name =
      some (M.met packet env).2 := fun name => (@Keyed.looked M packet name env h).2.2.2.2
  cases packet with
  | ping | ack => exact congrArg (Option.map Member.source) hmet.2.2.1
  | pingReq source target => exact congrArg (Option.map Member.source) (hkeep target)
  | gossip g =>
    obtain ⟨-, -, hm, hname, -⟩ := @Keyed.looked M (.gossip g) g.name env h
    obtain ⟨m', hkept, hmem⟩ := _update_members (M.looked (.gossip g) g.name env).1
      (M.looked (.gossip g) g.name env).2 (some (M.met (.gossip g) env).2) g.clock (some g.status)
      g.metadata env
    have hafter : (M.handled (.gossip g) env).after.members =
        Function.update (M.looked (.gossip g) g.name env).1.members g.name (some m') := by
      rw [hname] at hmem; exact hmem
    rw [hafter]
    by_cases hn : g.source.name = g.name
    · -- the news are about the source, which keeps its validity
      have hsame : (M.looked (.gossip g) g.name env).2 = (M.met (.gossip g) env).2 := by
        have hkeep := hkeep g.name
        rw [Packet.source_gossip, hn, hm] at hkeep
        exact Option.some.inj hkeep
      rw [Packet.source_gossip, hn, Function.update_self, Option.map_some, ← hsame, Member.source,
        Member.source, hkept.name, hkept.validity]
    · rw [Packet.source_gossip, Function.update_of_ne hn]
      exact congrArg (Option.map Member.source) (hkeep g.name)
  | gossipAck a =>
    have hafter : (M.handled (.gossipAck a) env).after =
        ((M.looked (.gossipAck a) a.name env).1.ackGossip (M.looked (.gossipAck a) a.name env).2
          (M.met (.gossipAck a) env).2 a.clock).after := rfl
    rw [hafter]
    by_cases hc : a.clock ≤ (M.looked (.gossipAck a) a.name env).1.nextClock
    · rw [ackGossip_ok hc, Py.after_ok, put_acked_members, hmet.2.2.2, Packet.source_gossipAck,
        Function.update_self]
      rfl
    · rw [ackGossip_error hc]
      exact congrArg (Option.map Member.source) (hkeep a.name)

/-- A packet from another member tells its current validity. -/
theorem Keyed.met_source (h : M.Keyed) (hne : packet.source.name ≠ M.localName) :
    (M.met packet env).2.source = packet.source := by
  obtain ⟨hk, hlooks, hentry, hname⟩ := @Keyed.met M packet env h
  have hremote : (M.met packet env).2.isLocal = false := by
    rw [← Bool.not_eq_true, hk.isLocal _ _ hentry, hlooks.localName]
    exact hne
  have hvalidity : (M.met packet env).2.validity = packet.source.validity := by
    rw [Members.met, get_snd] at hremote ⊢
    exact got_validity hremote
  rw [Member.source, hname, hvalidity]

end Members

namespace Worker

variable {w w' : Worker} {action : Action} {env : Env} {hist : List (Action × Env)} {t r : Name}

/-! ## Requests -/

def Action.From (action : Action) (t : Name) : Prop :=
  ∃ packet, action = .receive packet ∧ packet.source.name = t

def Action.Requests (action : Action) (t r : Name) : Prop :=
  ∃ source, action = .receive (.pingReq source t) ∧ source.name = r

/-- `r` has asked for `t`, and no packet from `t` was handled after that. The packet with the
request may be from `t` itself. -/
def Waits (hist : List (Action × Env)) (t r : Name) : Prop :=
  ∃ before l after, hist = before ++ l :: after ∧ l.1.Requests t r ∧ ∀ k ∈ after, ¬ k.1.From t

theorem not_waits_nil : ¬ Waits [] t r := by
  rintro ⟨before, l, after, hsplit, -⟩
  simp at hsplit

theorem waits_concat {l : Action × Env} :
    Waits (hist ++ [l]) t r ↔ l.1.Requests t r ∨ Waits hist t r ∧ ¬ l.1.From t := by
  constructor
  · rintro ⟨before, k, after, hsplit, hk, hafter⟩
    induction after using List.reverseRec with
    | nil =>
      obtain ⟨-, hlast⟩ := List.append_inj' hsplit rfl
      cases hlast
      exact Or.inl hk
    | append_singleton after k' _ =>
      rw [← List.cons_append, ← List.append_assoc] at hsplit
      obtain ⟨rfl, hlast⟩ := List.append_inj' hsplit rfl
      cases hlast
      exact Or.inr ⟨⟨before, k, after, rfl, hk, fun j hj => hafter j (by simp [hj])⟩,
        hafter l (by simp)⟩
  · rintro (hl | ⟨⟨before, k, after, rfl, hk, hafter⟩, hl⟩)
    · exact ⟨hist, l, [], rfl, hl, by simp⟩
    · refine ⟨before, k, after ++ [l], by simp, hk, fun j hj => ?_⟩
      obtain hj | hj := List.mem_append.mp hj
      · exact hafter j hj
      · rw [List.mem_singleton.mp hj]; exact hl

@[simp] theorem from_receive {packet : Packet} :
    (Action.receive packet).From t ↔ packet.source.name = t := by
  constructor
  · rintro ⟨_, ⟨⟩, hname⟩; exact hname
  · exact fun hname => ⟨packet, rfl, hname⟩

@[simp] theorem requests_receive {packet : Packet} :
    (Action.receive packet).Requests t r ↔
      ∃ source, packet = .pingReq source t ∧ source.name = r := by
  simp only [Action.Requests, Action.receive.injEq]

theorem waits_other {l : Action × Env} (h : ∀ packet, l.1 ≠ .receive packet) :
    Waits (hist ++ [l]) t r ↔ Waits hist t r := by
  rw [waits_concat]
  constructor
  · rintro (⟨source, hl, -⟩ | ⟨hw, -⟩)
    · exact absurd hl (h _)
    · exact hw
  · exact fun hw => Or.inr ⟨hw, fun ⟨packet, hl, _⟩ => h packet hl⟩

/-! ## The listening table -/

section Listening

variable {packet : Packet} {listening : Name → List Name}

theorem mem_update_insert {t' r' : Name} :
    r ∈ (if r' ∈ listening t' then listening
      else Function.update listening t' (listening t' ++ [r'])) t ↔
        t = t' ∧ r = r' ∨ r ∈ listening t := by
  split
  · rename_i hin
    constructor
    · exact Or.inr
    · rintro (⟨rfl, rfl⟩ | h)
      · exact hin
      · exact h
  · by_cases ht : t = t'
    · subst ht
      rw [Function.update_self, List.mem_append, List.mem_singleton]
      simp [or_comm]
    · rw [Function.update_of_ne ht]
      simp [ht]

theorem mem_listeningAfter :
    r ∈ listeningAfter packet listening t ↔ (Action.receive packet).Requests t r ∨
      r ∈ listening t ∧ ¬ (Action.receive packet).From t := by
  have hpop : r ∈ Function.update listening packet.source.name [] t ↔
      r ∈ listening t ∧ packet.source.name ≠ t := by
    by_cases ht : t = packet.source.name
    · subst ht; simp
    · rw [Function.update_of_ne ht]
      simp [Ne.symm ht]
  rw [requests_receive, from_receive]
  cases packet with
  | pingReq source target =>
    rw [listeningAfter, mem_update_insert, hpop]
    refine or_congr_left ⟨?_, ?_⟩
    · rintro ⟨rfl, rfl⟩; exact ⟨source, rfl, rfl⟩
    · rintro ⟨_, ⟨⟩, rfl⟩; exact ⟨rfl, rfl⟩
  | ping | ack | gossip | gossipAck => simpa [listeningAfter] using hpop

theorem nodup_listeningAfter (h : ∀ t, (listening t).Nodup) :
    (listeningAfter packet listening t).Nodup := by
  have hpop : ∀ t, (Function.update listening packet.source.name [] t).Nodup := by
    intro t
    by_cases ht : t = packet.source.name
    · subst ht; simp
    · rw [Function.update_of_ne ht]; exact h t
  cases packet with
  | pingReq source target =>
    simp only [listeningAfter]
    split
    · exact hpop t
    · rename_i hnew
      by_cases ht : t = target
      · subst ht
        rw [Function.update_self, ← List.concat_eq_append]
        exact (hpop t).concat hnew
      · rw [Function.update_of_ne ht]; exact hpop t
  | ping | ack | gossip | gossipAck => exact hpop t

end Listening

/-- **The listening table** has the requesters that wait, each once. -/
theorem listening_run {config : Config} {env₀ : Env}
    (h : run next (init config env₀) hist = some w) :
    ∀ t, (w.listening t).Nodup ∧ ∀ r, r ∈ w.listening t ↔ Waits hist t r := by
  refine @run_induction _ _ next _
    (fun hist w => ∀ t, (w.listening t).Nodup ∧ ∀ r, r ∈ w.listening t ↔ Waits hist t r)
    ?_ (fun hist l w w' hw ih hs => ?_) _ _ h
  · exact fun t => ⟨List.nodup_nil, fun r => iff_of_false List.not_mem_nil not_waits_nil⟩
  · have hkeyed := (run_ordered hw).keyed
    obtain ⟨action, env⟩ := l
    by_cases ha : ∃ packet, action = .receive packet
    · obtain ⟨packet, rfl⟩ := ha
      have hafter : w'.listening = listeningAfter packet w.listening := by
        rw [(step_receive hs).2, receive_eq hkeyed]; rfl
      intro t
      rw [hafter]
      refine ⟨nodup_listeningAfter fun t => (ih t).1, fun r => ?_⟩
      rw [mem_listeningAfter, waits_concat, (ih t).2 r]
    · have ha : ∀ packet, action ≠ .receive packet := fun packet hp => ha ⟨packet, hp⟩
      rw [(step_sendQueue hkeyed hs ha).2]
      intro t
      refine ⟨(ih t).1, fun r => ?_⟩
      rw [waits_other ha, (ih t).2 r]

/-! ## The acknowledgements -/

/-- Whom an acknowledgement on behalf of `t` goes to, and what it carries. -/
def ackFor (t : Name) (p : Name × Packet) : Option (Name × Source) :=
  match p.2 with
  | .ack source => if source.name = t then some (p.1, source) else none
  | .ping _ | .pingReq _ _ | .gossip _ | .gossipAck _ => none

def acksFor (t : Name) (queue : List (Name × Packet)) : List (Name × Source) :=
  queue.filterMap (ackFor t)

theorem acksFor_append (t : Name) (as bs : List (Name × Packet)) :
    acksFor t (as ++ bs) = acksFor t as ++ acksFor t bs := List.filterMap_append

theorem acksFor_outgoing : acksFor t (w.outgoing action) = [] := by
  rw [acksFor, List.filterMap_eq_nil_iff]
  intro p hp
  cases action with
  | ping target => rw [List.mem_singleton.mp hp]; rfl
  | pingReq target indirects => obtain ⟨_, -, rfl⟩ := List.mem_map.mp hp; rfl
  | disseminate target =>
    rw [outgoing] at hp
    cases hm : w.peer target with
    | none => rw [hm] at hp; cases hp
    | some m => rw [hm] at hp; obtain ⟨_, -, rfl⟩ := List.mem_map.mp hp; rfl
  | receive | verdict | expire | update => cases hp

theorem acksFor_reply {packet : Packet} (ht : t ≠ w.localMember.name) :
    acksFor t (w.reply packet) = [] := by
  cases packet with
  | ping source => simp [reply, acksFor, ackFor, Member.source, Ne.symm ht]
  | pingReq | ack | gossip | gossipAck => rfl

theorem acksFor_relayed {packet : Packet} (h : w.members.Keyed)
    (ht : t ≠ w.members.localName) :
    acksFor t (w.relayed packet env) =
      if packet.source.name = t then (w.listening t).map fun r => (r, packet.source) else [] := by
  obtain ⟨-, -, -, hname⟩ := @Members.Keyed.met w.members packet env h
  rw [relayed, hname]
  by_cases heq : packet.source.name = t
  · subst heq
    have hsource : (w.members.met packet env).2.source = packet.source :=
      h.met_source ht
    rw [if_pos rfl, hsource, acksFor, List.filterMap_map]
    exact List.filterMap_eq_map_iff_forall_eq_some.mpr fun r _ => if_pos rfl
  · rw [if_neg heq, acksFor, List.filterMap_eq_nil_iff]
    intro p hp
    obtain ⟨r, -, rfl⟩ := List.mem_map.mp hp
    exact if_neg (by rw [← hname] at heq; exact heq)

/-- **One handled packet**, and the acknowledgements on behalf of `t` it makes the node queue. -/
theorem acksFor_receive {packet : Packet} (h : w.members.Ordered)
    (ht : t ≠ w.members.localName) :
    acksFor t (w.receive packet env).sendQueue = acksFor t w.sendQueue ++
      if packet.source.name = t then (w.listening t).map fun r => (r, packet.source) else [] := by
  have hqueue : (w.receive packet env).sendQueue = w.sendQueue ++ w.queued packet env := by
    rw [receive_eq h.keyed]; rfl
  rw [hqueue, acksFor_append, queued, acksFor_append, acksFor_relayed h.keyed ht]
  refine congrArg (acksFor t w.sendQueue ++ ·) ?_
  cases hM : w.members.handled packet env with
  | error r => exact List.append_nil _
  | ok M =>
    -- the answer is on behalf of the local member, whose name stays
    have hafter : (w.members.handled packet env).after = M := by rw [hM]; rfl
    have hlocal : M.localMember.name = w.members.localName := by
      obtain ⟨ops, -, hrun⟩ := @Members.handled_calls w.members env packet h.keyed
      rw [← hafter, (@Members.Keyed.handled _ packet env h.keyed).localMember_name,
        h.run_localName hrun]
    have hreply : acksFor t (reply { w with members := M } packet) = [] :=
      acksFor_reply (by rw [localMember, hlocal]; exact ht)
    rw [hreply, List.append_nil]

theorem run_localName {config : Config} {env₀ : Env}
    (h : run next (init config env₀) hist = some w) : w.members.localName = config.localName := by
  refine @run_induction _ _ next _ (fun _ w => w.members.localName = config.localName)
    (init_localName config) (fun hist l w w' hw ih hs => ?_) _ _ h
  obtain ⟨ops, -, hrun⟩ := step_calls (run_ordered hw).keyed hs
  rw [(run_ordered hw).run_localName hrun, ih]

/-- The acknowledgements on behalf of `t` that one more action makes the node queue. -/
structure Relayed (hist : List (Action × Env)) (action : Action) (t : Name)
    (acks : List (Name × Source)) : Prop where
  once : (acks.map Prod.fst).Nodup
  exact : ∀ r source, (r, source) ∈ acks ↔ Waits hist t r ∧
    ∃ packet, action = .receive packet ∧ packet.source = source ∧ source.name = t

/-- **The next action**, after any others. The requesters are told the validity that `t` has. -/
theorem acksFor_step {config : Config} {env₀ : Env} (h : run next (init config env₀) hist = some w)
    (hs : w.step action env = some w') (ht : t ≠ config.localName) :
    ∃ acks, acksFor t w'.sendQueue = acksFor t w.sendQueue ++ acks ∧ Relayed hist action t acks ∧
      ∀ r source, (r, source) ∈ acks → (w'.members.members t).map Member.source = some source := by
  have hw := run_ordered h
  have hlistening := listening_run h t
  rw [← run_localName h] at ht
  by_cases ha : ∃ packet, action = .receive packet
  · obtain ⟨packet, rfl⟩ := ha
    rw [(step_receive hs).2, acksFor_receive hw ht, receive_members hw.keyed]
    refine ⟨_, rfl, ?_⟩
    by_cases hfrom : packet.source.name = t
    · subst hfrom
      rw [if_pos rfl]
      refine ⟨⟨?_, fun r source => ?_⟩, fun r source hmem => ?_⟩
      · simpa [List.map_map, Function.comp_def] using hlistening.1
      · rw [← hlistening.2 r, List.mem_map]
        constructor
        · rintro ⟨_, hr, ⟨⟩⟩; exact ⟨hr, packet, rfl, rfl, rfl⟩
        · rintro ⟨hr, _, ⟨⟩, rfl, -⟩; exact ⟨r, hr, rfl⟩
      · obtain ⟨_, -, heq⟩ := List.mem_map.mp hmem
        cases heq
        rw [hw.keyed.handled_source, hw.keyed.met_source ht]
    · rw [if_neg hfrom]
      refine ⟨⟨List.nodup_nil, fun r source => iff_of_false List.not_mem_nil ?_⟩, by simp⟩
      rintro ⟨-, _, ⟨⟩, rfl, hname⟩
      exact hfrom hname
  · have hother : ∀ packet, action ≠ .receive packet := fun packet hp => ha ⟨packet, hp⟩
    refine ⟨[], ?_, ⟨List.nodup_nil, fun r source => iff_of_false List.not_mem_nil ?_⟩, by simp⟩
    · rw [(step_sendQueue hw.keyed hs hother).1, acksFor_append, acksFor_outgoing]
    · rintro ⟨-, packet, hp, -⟩
      exact hother packet hp

/-- `acks` are, action by action, the acknowledgements on behalf of `t` that the run queues. -/
structure Ledger (config : Config) (env₀ : Env) (hist : List (Action × Env)) (t : Name)
    (acks : List (List (Name × Source))) : Prop where
  length : acks.length = hist.length
  entry : ∀ before l after, hist = before ++ l :: after →
    ∃ added w', acks[before.length]? = some added ∧ Relayed before l.1 t added ∧
      run next (init config env₀) (before ++ [l]) = some w' ∧
      ∀ r source, (r, source) ∈ added → (w'.members.members t).map Member.source = some source

theorem Ledger.concat {config : Config} {env₀ : Env} {l : Action × Env}
    {acks : List (List (Name × Source))} {added : List (Name × Source)}
    (h : Ledger config env₀ hist t acks) (hadded : Relayed hist l.1 t added)
    (hrun : run next (init config env₀) (hist ++ [l]) = some w')
    (hsource : ∀ r source, (r, source) ∈ added →
      (w'.members.members t).map Member.source = some source) :
    Ledger config env₀ (hist ++ [l]) t (acks ++ [added]) where
  length := by simp [h.length]
  entry := by
    intro before k after hsplit
    induction after using List.reverseRec with
    | nil =>
      -- the last action
      obtain ⟨rfl, hlast⟩ := List.append_inj' hsplit rfl
      cases hlast
      refine ⟨added, w', ?_, hadded, hrun, hsource⟩
      rw [← h.length]; simp
    | append_singleton after k' _ =>
      rw [← List.cons_append, ← List.append_assoc] at hsplit
      obtain ⟨rfl, -⟩ := List.append_inj' hsplit rfl
      obtain ⟨earlier, w'', hget, hrest⟩ := h.entry before k after rfl
      refine ⟨earlier, w'', ?_, hrest⟩
      rw [List.getElem?_append_left (List.getElem?_eq_some_iff.mp hget).1]
      exact hget

/-- **Relaying is exact.** In every run, the acknowledgements queued on behalf of another member are
those each action adds, in order: a packet from the member adds one for each requester that waits,
with the validity the member then has, and no other action adds any. -/
theorem relays_exactly (config : Config) (env₀ : Env) (hist : List (Action × Env)) (w : Worker)
    (h : run next (init config env₀) hist = some w) (t : Name) (ht : t ≠ config.localName) :
    ∃ acks, Ledger config env₀ hist t acks ∧ acksFor t w.sendQueue = acks.flatten := by
  refine @run_induction _ _ next _ (fun hist w =>
      ∃ acks, Ledger config env₀ hist t acks ∧ acksFor t w.sendQueue = acks.flatten)
    ⟨[], ⟨rfl, fun before l after hsplit => by simp at hsplit⟩, rfl⟩
    (fun hist l w w' hw ih hs => ?_) _ _ h
  obtain ⟨acks, hledger, hqueue⟩ := ih
  obtain ⟨added, hadded, hrelayed, hsource⟩ := acksFor_step hw hs ht
  have hrun : run next (init config env₀) (hist ++ [l]) = some w' := by
    rw [run_append, hw]
    exact (run_singleton w l).trans hs
  exact ⟨acks ++ [added], hledger.concat hrelayed hrun hsource, by simp [hadded, hqueue]⟩

/-- `b` asks for `c` twice, then `c` is heard twice. -/
def asked : List (Action × Env) :=
  [(.receive (.pingReq ⟨"b", []⟩ "c"), still), (.receive (.pingReq ⟨"b", []⟩ "c"), still),
    (.receive (.ack ⟨"c", [1]⟩), still), (.receive (.ping ⟨"c", [1]⟩), still)]

theorem relays_exactly_asked : ∃ w acks, run next (init nodeA still) asked = some w ∧
    Ledger nodeA still asked "c" acks ∧ acksFor "c" w.sendQueue = acks.flatten ∧
      acksFor "c" w.sendQueue = [("b", ⟨"c", [1]⟩)] := by
  have hrun : (run next (init nodeA still) asked).map (fun w => acksFor "c" w.sendQueue) =
      some [("b", ⟨"c", [1]⟩)] := by decide +kernel
  obtain ⟨w, hw, hacks⟩ := Option.map_eq_some_iff.mp hrun
  obtain ⟨acks, hledger, hqueue⟩ := relays_exactly nodeA still asked w hw "c" (by decide)
  exact ⟨w, acks, hw, hledger, hqueue, hacks⟩

end Worker

end Swim
