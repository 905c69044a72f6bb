import Swim.Sources
import Swim.Quiescence

/-!
# Swim.Round

A full round of gossip: `a` disseminates to `b`, `b` handles the gossip in any order, and `a`
handles the acknowledgements in any order.

* `Hears` — what a node holds after gossip from one source, compared with before.
* `hears_all` — the gossip is handled, whatever its order.
* `Learns`, `learns_all` — the same for acknowledgements from one source.
* `Round` — what a round should achieve.
* `round_iff` — it does so exactly if the gossip has `a` itself among its members, or `b` holds the
  metadata of `a` already. An old packet of `a` about itself may have undone them, see `late`.
-/

namespace Swim

open Transition

namespace Members

variable {M : Members} {g : Gossip} {packet : Packet} {n name : Name} {x : Member} {env : Env}

/-- The clock of a member, `0` for one that is not in the table. -/
def clockAt (M : Members) (n : Name) : Int := ((M.members n).map Member.clock).getD 0

theorem clockAt_some (h : M.members n = some x) : M.clockAt n = x.clock := by rw [clockAt, h]; rfl

theorem Keyed.looked_of_ne (h : M.Keyed) (hsrc : n ≠ packet.source.name) (hn : n ≠ name) :
    (M.looked packet name env).1.members n = M.members n := by
  have hmet : (M.met packet env).1.members n = M.members n := h.get_of_ne hsrc
  rw [Members.looked, (@Keyed.met M packet env h).1.get_of_ne hn, hmet]

theorem Keyed.looked_known (h : M.Keyed) (hsrc : n ≠ packet.source.name)
    (hk : (M.members name).isSome = true) :
    (M.looked packet name env).1.members n = M.members n := by
  by_cases hn : n = name
  · subst hn
    obtain ⟨x, hx⟩ := Option.isSome_iff_exists.mp hk
    have hmet : (M.met packet env).1.members n = M.members n := h.get_of_ne hsrc
    rw [Members.looked, (@Keyed.met M packet env h).1.get_self, hx]
    exact congrArg some (found_of_some (hmet.trans hx))
  · exact h.looked_of_ne hsrc hn

theorem Keyed.gossip_of_ne (h : M.Keyed) (hsrc : n ≠ g.source.name) (hn : n ≠ g.name) :
    (M.handled (.gossip g) env).after.members n = M.members n := by
  obtain ⟨m', -, hmem⟩ := _update_members (M.looked (.gossip g) g.name env).1
    (M.looked (.gossip g) g.name env).2 (some (M.met (.gossip g) env).2) g.clock (some g.status)
    g.metadata env
  have hname := (@Keyed.looked M (.gossip g) g.name env h).2.2.2.1
  have hafter : (M.handled (.gossip g) env).after.members = _ := hmem
  rw [hafter, hname, Function.update_of_ne hn]
  exact h.looked_of_ne hsrc hn

theorem Wf.gossip_refused (h : M.Wf) (hr : g.status.real) (hsrc : g.name ≠ g.source.name)
    (hx : M.members g.name = some x) (hle : g.clock ≤ x.clock) :
    (M.handled (.gossip g) env).after.members g.name = some x := by
  have hname := h.name _ _ hx
  have hlooked : (M.looked (.gossip g) g.name env).2 = x := by
    have hmet : (M.met (.gossip g) env).1.members g.name = M.members g.name :=
      h.toKeyed.get_of_ne hsrc
    rw [Members.looked, get_snd]
    exact found_of_some (hmet.trans hx)
  have hmetName := (@Keyed.met M (.gossip g) env h.toKeyed).2.2.2
  have hno : x.accepts (some (M.met (.gossip g) env).2) g.clock = false := by
    have hnot : ¬ x.clock < g.clock := not_lt.mpr hle
    simp [Member.accepts, hnot, hmetName, hname, Ne.symm hsrc]
  have hhandled : M.handled (.gossip g) env =
      (M.looked (.gossip g) g.name env).1._update x (some (M.met (.gossip g) env).2) g.clock
        (some g.status) g.metadata env := by
    rw [← hlooked]; rfl
  have hset := h.settled _ _ hx
  have hreal : ∀ s ∈ some g.status, s.settable := by
    rintro s ⟨⟩
    exact Status.settable_of_real hr
  rw [hhandled, _update_ok hset.clean hreal, Py.after_ok, commit_members,
    Member.applied_of_not_accepts hno, hname, Function.update_self]

theorem got_known {v : Bytes} (hx : M.members n = some x)
    (hv : ∀ k c, x.knownClocks k = some c → x.validity = v) :
    (M.got n (some v) env).knownClocks = x.knownClocks := by
  rw [got.eq_def, hx]
  dsimp only [Option.getD_some]
  split
  · rename_i hreset
    funext k
    cases hc : x.knownClocks k with
    | none => rfl
    | some c => exact absurd (hv k c hc) hreset.2
  · rfl

section Ack

variable {a : GossipAck}

theorem Keyed.handled_ack (h : M.Keyed) (hle : a.clock ≤ M.nextClock) :
    M.handled (.gossipAck a) env = .ok ((M.looked (.gossipAck a) a.name env).1.put
      (acked (M.met (.gossipAck a) env).2 a.name a.clock)) := by
  obtain ⟨-, hlooks, -, hname, -⟩ := @Keyed.looked M (.gossipAck a) a.name env h
  have hack : M.handled (.gossipAck a) env =
      (M.looked (.gossipAck a) a.name env).1.ackGossip
        (M.looked (.gossipAck a) a.name env).2 (M.met (.gossipAck a) env).2 a.clock := rfl
  rw [hack, ackGossip_ok (by rw [hlooks.nextClock]; exact hle), hname]

theorem Keyed.ack_nextClock (h : M.Keyed) (hle : a.clock ≤ M.nextClock) :
    (M.handled (.gossipAck a) env).after.nextClock = M.nextClock := by
  rw [h.handled_ack hle]
  exact (@Keyed.looked M (.gossipAck a) a.name env h).2.1.nextClock

theorem Keyed.ack_of_ne (h : M.Keyed) (hle : a.clock ≤ M.nextClock)
    (hk : (M.members a.name).isSome = true) (hn : n ≠ a.source.name) :
    (M.handled (.gossipAck a) env).after.members n = M.members n := by
  have hname := (@Keyed.met M (.gossipAck a) env h).2.2.2
  rw [h.handled_ack hle, Py.after_ok, put_acked_members, hname, Packet.source_gossipAck,
    Function.update_of_ne hn]
  exact h.looked_known hn hk

/-- The record of the acknowledging member: what it acknowledged before is forgotten if it has
another validity. -/
theorem Keyed.ack_self (h : M.Keyed) (hle : a.clock ≤ M.nextClock) :
    (M.handled (.gossipAck a) env).after.members a.source.name =
      some (acked (M.got a.source.name (some a.source.validity) env) a.name a.clock) := by
  have hname := (@Keyed.met M (.gossipAck a) env h).2.2.2
  rw [h.handled_ack hle, Py.after_ok, put_acked_members, hname, Packet.source_gossipAck,
    Function.update_self, Members.met, get_snd]
  rfl

end Ack

end Members

namespace Worker

variable {w w' w'' : Worker} {g : Gossip} {a n : Name} {env : Env} {d : Option Metadata}

def handles (w : Worker) (packets : List (Packet × Env)) : Option Worker :=
  run next w (packets.map fun (packet, env) => (.receive packet, env))

def receipts (w : Worker) : List Packet := (w.sendQueue.map Prod.snd).filter fun packet =>
  match packet with
  | .gossipAck _ => true
  | _ => false

/-! ## The receiver -/

structure Hears (a : Name) (w w' : Worker) (gossips : List Gossip) : Prop where
  wf : w'.members.Wf
  alive : w'.failed = none
  localName : w'.members.localName = w.members.localName
  source : w'.localMember.source = w.localMember.source
  status : w'.localMember.status = w.localMember.status
  metadata : w'.localMember.metadataDict = w.localMember.metadataDict
  receipts : w'.receipts =
    w.receipts ++ gossips.map fun g => .gossipAck (gossipReply w.localMember g)
  kept : ∀ n, n ≠ a → (∀ g ∈ gossips, g.name = n →
    ∃ x, w.members.members n = some x ∧ g.clock ≤ x.clock) →
      w'.members.members n = w.members.members n
  stays : ∀ n d, (∀ g ∈ gossips, g.name = n → g.metadata = d) → w.members.dataOf n = d →
    w'.members.dataOf n = d
  taken : ∀ g ∈ gossips, (∀ g' ∈ gossips, g'.name = g.name → g' = g) →
    g.name ≠ w.members.localName → g.metadata.isSome = true →
      (w.members.clockAt g.name < g.clock ∨ g.name = a) → w'.members.dataOf g.name = g.metadata

theorem Hears.refl (h : w.members.Wf) (hf : w.failed = none) : Hears a w w [] where
  wf := h
  alive := hf
  localName := rfl
  source := rfl
  status := rfl
  metadata := rfl
  receipts := (List.append_nil _).symm
  kept := fun _ _ _ => rfl
  stays := fun _ _ _ hd => hd
  taken := nofun

theorem Hears.trans {gs gs' : List Gossip} (h : Hears a w w' gs) (h' : Hears a w' w'' gs') :
    Hears a w w'' (gs ++ gs') where
  wf := h'.wf
  alive := h'.alive
  localName := h'.localName.trans h.localName
  source := h'.source.trans h.source
  status := h'.status.trans h.status
  metadata := h'.metadata.trans h.metadata
  receipts := by
    have hreply : ∀ g, gossipReply w'.localMember g = gossipReply w.localMember g := by
      intro g
      rw [gossipReply, gossipReply, h.source]
    rw [h'.receipts, h.receipts, List.append_assoc, List.map_append]
    simp only [hreply]
  kept := by
    intro n hn hold
    have hfirst := h.kept n hn fun g hg => hold g (List.mem_append_left _ hg)
    rw [← hfirst] at hold ⊢
    exact h'.kept n hn fun g hg => hold g (List.mem_append_right _ hg)
  stays := by
    intro n d hd hw
    refine h'.stays n d (fun g hg => hd g (List.mem_append_right _ hg)) ?_
    exact h.stays n d (fun g hg => hd g (List.mem_append_left _ hg)) hw
  taken := by
    intro g hg honly hremote hk hnew
    have hsame : ∀ g' ∈ gs', g'.name = g.name → g'.metadata = g.metadata := fun g' hg' hn =>
      congrArg Gossip.metadata (honly g' (List.mem_append_right _ hg') hn)
    by_cases hfirst : g ∈ gs
    · refine h'.stays g.name _ hsame (h.taken g hfirst (fun g' hg' => ?_) hremote hk hnew)
      exact honly g' (List.mem_append_left _ hg')
    · -- the entry is as it was when the second part starts
      have hlast : g ∈ gs' := (List.mem_append.mp hg).resolve_left hfirst
      have hnone : ∀ g' ∈ gs, g'.name ≠ g.name := by
        intro g' hg' hn
        exact hfirst (honly g' (List.mem_append_left _ hg') hn ▸ hg')
      refine h'.taken g hlast (fun g' hg' => honly g' (List.mem_append_right _ hg'))
        (by rw [h.localName]; exact hremote) hk ?_
      by_cases hn : g.name = a
      · exact Or.inr hn
      · have hentry := h.kept g.name hn fun g' hg' heq => absurd heq (hnone g' hg')
        refine Or.inl ?_
        rw [Members.clockAt, hentry]
        exact hnew.resolve_right hn

theorem receipts_gossip (h : w.members.Wf) (hg : g.status.real) :
    (w.receive (.gossip g) env).receipts =
      w.receipts ++ [.gossipAck (gossipReply w.localMember g)] := by
  -- what is passed on to listening members is no acknowledgement of gossip
  have hrelayed : ((w.relayed (.gossip g) env).map Prod.snd).filter (fun packet =>
      match packet with
      | .gossipAck _ => true
      | _ => false) = [] := by
    refine List.filter_eq_nil_iff.mpr fun p hp => ?_
    obtain ⟨⟨target, q⟩, hq, rfl⟩ := List.mem_map.mp hp
    obtain ⟨_, -, heq⟩ := List.mem_map.mp hq
    cases heq
    exact Bool.false_ne_true
  have hqueue := @receive_sendQueue w (.gossip g) env h hg
  rw [receipts, receipts, hqueue, List.map_append, List.map_append, List.filter_append,
    List.filter_append, hrelayed, List.append_nil]
  rfl

theorem hears_gossip (h : w.members.Wf) (hf : w.failed = none) (hg : g.status.real)
    (hsrc : g.source.name = a) : Hears a w (w.receive (.gossip g) env) [g] := by
  have hstep : w.step (.receive (.gossip g)) env = some (w.receive (.gossip g) env) := if_pos hf
  have hmembers : (w.receive (.gossip g) env).members = (w.members.handled (.gossip g) env).after :=
    receive_members h.toKeyed
  obtain ⟨hwf, hgrows⟩ := @step_wf w _ env (.receive (.gossip g)) h hg hstep
  have hdata := gossip_dataOf h hg hstep
  have hshift := @step_shift w _ (.receive (.gossip g)) env h hg hstep
  refine ⟨hwf, (@Cluster.receive_failed_iff w (.gossip g) env h hg).mpr nofun, hgrows.localName,
    @step_localSource w _ (.receive (.gossip g)) env h hg hstep, ?_, ?_, receipts_gossip h hg,
    fun n hn hold => ?_, fun n d hd hw => ?_, fun g' hg' _ hremote hk hnew => ?_⟩
  · rw [localMember, hmembers]
    exact handled_local_status h hg
  · have hlocal : (w.receive (.gossip g) env).members.dataOf w.members.localName =
        w.members.dataOf w.members.localName := by
      by_cases hname : g.name = w.members.localName
      · rw [hname, if_neg fun hno => hno.1 rfl] at hdata
        exact hdata
      · exact hshift.data _ fun heq => hname (Option.some.inj heq)
    rw [Members.dataOf_some h.localMember, ← hgrows.localName,
      Members.dataOf_some hwf.localMember] at hlocal
    exact hlocal
  · rw [hmembers]
    by_cases hname : n = g.name
    · subst hname
      obtain ⟨x, hx, hle⟩ := hold g (List.mem_singleton_self g) rfl
      rw [h.gossip_refused hg (by rw [hsrc]; exact hn) hx hle, hx]
    · exact h.toKeyed.gossip_of_ne (by rw [hsrc]; exact hn) hname
  · by_cases hname : n = g.name
    · subst hname
      rw [hdata, hd g (List.mem_singleton_self g) rfl, hw]
      split
      · exact Option.or_self
      · rfl
    · rw [hshift.data n fun heq => hname (Option.some.inj heq).symm, hw]
  · cases List.mem_singleton.mp hg'
    have hfound : (w.members.found g.name env).clock = w.members.clockAt g.name := by
      cases hx : w.members.members g.name with
      | some x => rw [Members.found_of_some hx, Members.clockAt_some hx]
      | none => rw [Members.found_of_none hx, Members.clockAt, hx]; rfl
    obtain ⟨μ, hμ⟩ := Option.isSome_iff_exists.mp hk
    rw [hdata, hfound, hsrc, if_pos ⟨hremote, hnew.imp_right Eq.symm⟩, hμ, Option.some_or]

theorem handles_cons {packet : Packet} {packets : List (Packet × Env)} (hf : w.failed = none) :
    w.handles ((packet, env) :: packets) = (w.receive packet env).handles packets := by
  have hstep : w.step (.receive packet) env = some (w.receive packet env) := if_pos hf
  rw [handles, List.map_cons, run_cons, next, hstep]
  rfl

/-- **Gossip from one source**, in any order, is handled. -/
theorem hears_all {gossips : List (Gossip × Env)} (h : w.members.Wf) (hf : w.failed = none)
    (hg : ∀ x ∈ gossips, x.1.status.real ∧ x.1.source.name = a) :
    ∃ w', w.handles (gossips.map fun x => (.gossip x.1, x.2)) = some w' ∧
      Hears a w w' (gossips.map Prod.fst) := by
  induction gossips generalizing w with
  | nil => exact ⟨w, rfl, .refl h hf⟩
  | cons x gossips ih =>
    obtain ⟨hreal, hsrc⟩ := hg x List.mem_cons_self
    have hfirst := @hears_gossip w x.1 a x.2 h hf hreal hsrc
    obtain ⟨w', hw', hrest⟩ := ih hfirst.wf hfirst.alive fun y hy =>
      hg y (List.mem_cons_of_mem _ hy)
    exact ⟨w', by rw [List.map_cons, handles_cons hf, hw'], hfirst.trans hrest⟩

/-! ## The sender -/

/-- `w'` is `w` after acknowledgements from `b` were handled, of the clock `clk k` for every `k` in
`names`. -/
structure Learns (b : Name) (clk : Name → Int) (w w' : Worker) (names : List Name) : Prop where
  wf : w'.members.Wf
  alive : w'.failed = none
  localName : w'.members.localName = w.members.localName
  nextClock : w'.members.nextClock = w.members.nextClock
  kept : ∀ n, n ≠ b → w'.members.members n = w.members.members n
  learned : ∀ t, w.members.members b = some t → ∃ t', w'.members.members b = some t' ∧
    t'.clock = t.clock ∧ t'.metadataDict = t.metadataDict ∧ t'.isLocal = t.isLocal ∧
      ∀ k, t'.knownClocks k = if k ∈ names then some (clk k) else t.knownClocks k

theorem Learns.refl {b : Name} {clk : Name → Int} (h : w.members.Wf) (hf : w.failed = none) :
    Learns b clk w w [] where
  wf := h
  alive := hf
  localName := rfl
  nextClock := rfl
  kept := fun _ _ => rfl
  learned := fun t ht => ⟨t, ht, rfl, rfl, rfl, fun _ => (if_neg (List.not_mem_nil)).symm⟩

theorem Learns.trans {b : Name} {clk : Name → Int} {names names' : List Name}
    (h : Learns b clk w w' names) (h' : Learns b clk w' w'' names') :
    Learns b clk w w'' (names ++ names') where
  wf := h'.wf
  alive := h'.alive
  localName := h'.localName.trans h.localName
  nextClock := h'.nextClock.trans h.nextClock
  kept := fun n hn => (h'.kept n hn).trans (h.kept n hn)
  learned := by
    intro t ht
    obtain ⟨t', ht', hc, hd, hl, hk⟩ := h.learned t ht
    obtain ⟨t'', ht'', hc', hd', hl', hk'⟩ := h'.learned t' ht'
    refine ⟨t'', ht'', hc'.trans hc, hd'.trans hd, hl'.trans hl, fun k => ?_⟩
    rw [hk', hk]
    by_cases hlast : k ∈ names'
    · simp [hlast]
    · simp [hlast]

/-- One acknowledgement. What was acknowledged before is of the same incarnation of `b`, so it is
not forgotten. -/
theorem learns_ack {a : GossipAck} {b : Name} {v : Bytes} {clk : Name → Int} (h : w.members.Wf)
    (hf : w.failed = none) (hsrc : a.source = ⟨b, v⟩) (hclk : a.clock = clk a.name)
    (hle : a.clock ≤ w.members.nextClock) (hin : (w.members.members a.name).isSome = true)
    (hv : ∀ t, w.members.members b = some t → ∀ k c, t.knownClocks k = some c → t.validity = v) :
    Learns b clk w (w.receive (.gossipAck a) env) [a.name] ∧
      ∀ t', (w.receive (.gossipAck a) env).members.members b = some t' →
        t'.isLocal = false → t'.validity = v := by
  have hstep : w.step (.receive (.gossipAck a)) env = some (w.receive (.gossipAck a) env) :=
    if_pos hf
  obtain ⟨hwf, hgrows⟩ := @step_wf w _ env (.receive (.gossipAck a)) h trivial hstep
  have hmembers : (w.receive (.gossipAck a) env).members =
      (w.members.handled (.gossipAck a) env).after := receive_members h.toKeyed
  have hname : a.source.name = b := congrArg Source.name hsrc
  have hvalidity : a.source.validity = v := congrArg Source.validity hsrc
  have hself := @Members.Keyed.ack_self w.members env a h.toKeyed hle
  rw [← hmembers, hname, hvalidity] at hself
  refine ⟨⟨hwf, (@Cluster.receive_failed_iff w (.gossipAck a) env h trivial).mpr ?_,
    hgrows.localName, ?_, fun n hn => ?_, fun t ht => ⟨_, hself, ?_⟩⟩, fun t' ht' hl => ?_⟩
  · rintro _ ⟨⟩
    exact hle
  · rw [hmembers, h.toKeyed.ack_nextClock hle]
  · rw [hmembers, h.toKeyed.ack_of_ne hle hin (by rw [hname]; exact hn)]
  · have hsame := Members.same_got w.members b (some v) env
    rw [Members.found_of_some ht] at hsame
    refine ⟨hsame.clock, hsame.metadataDict, hsame.isLocal, fun k => ?_⟩
    have hknown : (w.members.got b (some v) env).knownClocks = t.knownClocks :=
      Members.got_known ht (hv t ht)
    show Function.update (w.members.got b (some v) env).knownClocks a.name (some a.clock) k = _
    rw [hknown, hclk]
    by_cases hk : k = a.name
    · subst hk
      rw [Function.update_self, if_pos (List.mem_singleton_self _)]
    · rw [Function.update_of_ne hk, if_neg fun hmem => hk (List.mem_singleton.mp hmem)]
  · cases hself.symm.trans ht'
    exact Members.got_validity hl

/-- **Acknowledgements from one source**, in any order, are handled. -/
theorem learns_all {acks : List (GossipAck × Env)} {b : Name} {v : Bytes} {clk : Name → Int}
    (h : w.members.Wf) (hf : w.failed = none) (hb : b ≠ w.members.localName)
    (ha : ∀ x ∈ acks, x.1.source = ⟨b, v⟩ ∧ x.1.clock = clk x.1.name ∧
      x.1.clock ≤ w.members.nextClock ∧ (w.members.members x.1.name).isSome = true)
    (hv : ∀ t, w.members.members b = some t → ∀ k c, t.knownClocks k = some c → t.validity = v) :
    ∃ w', w.handles (acks.map fun x => (.gossipAck x.1, x.2)) = some w' ∧
      Learns b clk w w' (acks.map fun x => x.1.name) := by
  induction acks generalizing w with
  | nil => exact ⟨w, rfl, .refl h hf⟩
  | cons x acks ih =>
    obtain ⟨hsrc, hclk, hle, hin⟩ := ha x List.mem_cons_self
    obtain ⟨hfirst, hvalidity⟩ := @learns_ack w x.2 x.1 b v clk h hf hsrc hclk hle hin hv
    have hremote : ∀ t', (w.receive (.gossipAck x.1) x.2).members.members b = some t' →
        t'.isLocal = false := by
      intro t' ht'
      rw [← Bool.not_eq_true, hfirst.wf.isLocal b t' ht', hfirst.localName]
      exact hb
    have htail : ∀ y ∈ acks, y.1.source = ⟨b, v⟩ ∧ y.1.clock = clk y.1.name ∧
        y.1.clock ≤ (w.receive (.gossipAck x.1) x.2).members.nextClock ∧
          ((w.receive (.gossipAck x.1) x.2).members.members y.1.name).isSome = true := by
      intro y hy
      obtain ⟨hsrc', hclk', hle', hin'⟩ := ha y (List.mem_cons_of_mem _ hy)
      refine ⟨hsrc', hclk', by rw [hfirst.nextClock]; exact hle', ?_⟩
      by_cases hn : y.1.name = b
      · obtain ⟨t, ht⟩ := Option.isSome_iff_exists.mp hin'
        rw [hn] at ht ⊢
        obtain ⟨t', ht', -⟩ := hfirst.learned t ht
        rw [ht']; rfl
      · rw [hfirst.kept _ hn]; exact hin'
    obtain ⟨w', hw', hrest⟩ := ih hfirst.wf hfirst.alive (by rw [hfirst.localName]; exact hb) htail
      fun t ht k c _ => hvalidity t ht (hremote t ht)
    exact ⟨w', by rw [List.map_cons, handles_cons hf, hw'], hfirst.trans hrest⟩

def tells (w : Worker) (t : Member) : List Gossip :=
  (w.members.getGossip t).map (buildGossip w.localMember)

end Worker

theorem exists_of_perm_map {α β γ : Type*} {f : α → β} (hf : Function.Injective f)
    {ps : List (β × γ)} {xs : List α} (h : (ps.map Prod.fst).Perm (xs.map f)) :
    ∃ ys : List (α × γ), ps = ys.map (fun y => (f y.1, y.2)) ∧ (ys.map Prod.fst).Perm xs := by
  have hrange : ps ∈ Set.range (List.map fun y : α × γ => (f y.1, y.2)) := by
    rw [Set.range_list_map]
    intro p hp
    obtain ⟨x, -, hx⟩ := List.mem_map.mp (h.subset (List.mem_map_of_mem hp))
    exact ⟨(x, p.2), Prod.ext hx rfl⟩
  obtain ⟨ys, rfl⟩ := hrange
  refine ⟨ys, rfl, ?_⟩
  rw [List.map_map] at h
  have hcomp : (ys.map (Prod.fst ∘ fun y : α × γ => (f y.1, y.2))) = (ys.map Prod.fst).map f := by
    rw [List.map_map]; rfl
  rw [hcomp] at h
  exact (List.map_perm_map_iff hf).mp h

namespace Cluster

open Worker

variable {C : Cluster} {a b : Name} {wa wb wa' wb' : Worker} {t : Member}

/-! ## The round -/

/-- What a round of gossip from `a` to `b` is for, where `t` is what `a` records about `b`: `b`
holds the metadata of `a` and of the members `a` had newer gossip about, keeps what it holds of
the others and of itself, and `a` has nothing more to tell. -/
structure Round (a b : Name) (wa wb : Worker) (t : Member) (wa' wb' : Worker) : Prop where
  own : wb'.members.dataOf a = wa'.members.dataOf a
  newer : ∀ m ∈ wa.members.getGossip t, m.name ≠ b → m.metadataDict.isSome = true →
    wb.members.clockAt m.name < m.clock → wb'.members.dataOf m.name = wa'.members.dataOf m.name
  older : ∀ m ∈ wa.members.getGossip t, m.name ≠ a → m.name ≠ b →
    m.clock ≤ wb.members.clockAt m.name → wb'.members.members m.name = wb.members.members m.name
  self : wb'.localMember.status = wb.localMember.status ∧
    wb'.localMember.metadataDict = wb.localMember.metadataDict
  told : ∀ t', wa'.members.members b = some t' → wa'.members.getGossip t' = []

/-- The round succeeds, whatever the order in which `b` handles the gossip and `a` handles the
acknowledgements. -/
def Succeeds (a b : Name) (wa wb : Worker) (t : Member) : Prop :=
  ∀ gossips : List (Packet × Env),
    (gossips.map Prod.fst).Perm ((wa.disseminate t).sendQueue.map Prod.snd) →
    ∃ wb', wb.handles gossips = some wb' ∧ ∀ acks : List (Packet × Env),
      (acks.map Prod.fst).Perm wb'.receipts →
      ∃ wa', (wa.disseminate t).handles acks = some wa' ∧ Round a b wa wb t wa' wb'

theorem mem_tells {g : Gossip} : g ∈ wa.tells t ↔
    ∃ m ∈ wa.members.getGossip t, buildGossip wa.localMember m = g := List.mem_map

theorem tells_unique (h : wa.members.Wf) {g g' : Gossip} (hg : g ∈ wa.tells t)
    (hg' : g' ∈ wa.tells t) (hn : g'.name = g.name) : g' = g := by
  obtain ⟨m, hm, rfl⟩ := mem_tells.mp hg
  obtain ⟨m', hm', rfl⟩ := mem_tells.mp hg'
  have hentry := (h.mem_getGossip.mp hm).1
  have hentry' := (h.mem_getGossip.mp hm').1
  have hname : m'.name = m.name := hn
  rw [hname] at hentry'
  cases hentry.symm.trans hentry'
  rfl

theorem disseminate_packets (hq : wa.sendQueue = []) :
    (wa.disseminate t).sendQueue.map Prod.snd = (wa.tells t).map Packet.gossip := by
  rw [disseminate_eq, hq, List.nil_append, gossipFor, tells, List.map_map, List.map_map]
  rfl

theorem hears_round (h : C.Sane) (halive : C.Alive) (ha : C.nodes a = some wa)
    (hb : C.nodes b = some wb) {gossips : List (Packet × Env)}
    (hperm : (gossips.map Prod.fst).Perm ((wa.disseminate t).sendQueue.map Prod.snd)) :
    ∃ wb' gs, wb.handles gossips = some wb' ∧ gs.Perm (wa.tells t) ∧ Hears a wb wb' gs := by
  rw [disseminate_packets (h.drained a wa ha)] at hperm
  obtain ⟨ys, rfl, hys⟩ := exists_of_perm_map (fun _ _ => Packet.gossip.inj) hperm
  have hwf := h.wf a wa ha
  have hg : ∀ y ∈ ys, y.1.status.real ∧ y.1.source.name = a := by
    intro y hy
    obtain ⟨m, hm, heq⟩ := mem_tells.mp (hys.subset (List.mem_map_of_mem hy))
    rw [← heq]
    exact ⟨(hwf.settled _ _ (hwf.mem_getGossip.mp hm).1).real,
      hwf.localMember_name.trans (h.named a wa ha)⟩
  obtain ⟨wb', hw', hhears⟩ := hears_all (h.wf b wb hb) (halive b wb hb) hg
  exact ⟨wb', _, hw', hys, hhears⟩

theorem learns_round (h : C.Sane) (hauth : C.Authentic) (halive : C.Alive)
    (hne : a ≠ b) (ha : C.nodes a = some wa) (hb : C.nodes b = some wb)
    {gs : List Gossip} (hgs : gs.Perm (wa.tells t)) (hhears : Hears a wb wb' gs)
    {acks : List (Packet × Env)} (hperm : (acks.map Prod.fst).Perm wb'.receipts) :
    ∃ wa' names, (wa.disseminate t).handles acks = some wa' ∧
      (∀ k, k ∈ names ↔ ∃ m ∈ wa.members.getGossip t, m.name = k) ∧
      Learns b wa.members.clockAt (wa.disseminate t) wa' names := by
  have hwf := h.wf a wa ha
  have hreceipts : wb'.receipts = (gs.map (gossipReply wb.localMember)).map Packet.gossipAck := by
    rw [hhears.receipts, receipts, h.drained b wb hb, List.map_map]
    rfl
  rw [hreceipts] at hperm
  obtain ⟨ys, rfl, hys⟩ := exists_of_perm_map (fun _ _ => Packet.gossipAck.inj) hperm
  -- every acknowledgement answers gossip about one of the members told
  have hmem : ∀ x, x ∈ ys.map Prod.fst ↔ ∃ m ∈ wa.members.getGossip t,
      x = gossipReply wb.localMember (buildGossip wa.localMember m) := by
    intro x
    rw [hys.mem_iff, List.mem_map]
    constructor
    · rintro ⟨g, hg, rfl⟩
      obtain ⟨m, hm, rfl⟩ := mem_tells.mp (hgs.subset hg)
      exact ⟨m, hm, rfl⟩
    · rintro ⟨m, hm, rfl⟩
      exact ⟨_, hgs.mem_iff.mpr (mem_tells.mpr ⟨m, hm, rfl⟩), rfl⟩
  have hack : ∀ y ∈ ys, y.1.source = ⟨b, wb.localMember.validity⟩ ∧
      y.1.clock = wa.members.clockAt y.1.name ∧
        y.1.clock ≤ (wa.disseminate t).members.nextClock ∧
          ((wa.disseminate t).members.members y.1.name).isSome = true := by
    intro y hy
    obtain ⟨m, hm, heq⟩ := (hmem y.1).mp (List.mem_map_of_mem hy)
    have hentry := (hwf.mem_getGossip.mp hm).1
    have hname : wb.localMember.name = b :=
      (h.wf b wb hb).localMember_name.trans (h.named b wb hb)
    rw [disseminate_members, heq]
    refine ⟨by rw [← hname]; rfl, (Members.clockAt_some hentry).symm,
      le_of_lt (hwf.settled _ _ hentry).below, ?_⟩
    show (wa.members.members m.name).isSome = true
    rw [hentry]; rfl
  have hv : ∀ x, (wa.disseminate t).members.members b = some x → ∀ k c,
      x.knownClocks k = some c → x.validity = wb.localMember.validity := by
    intro x hx k c hc
    rw [disseminate_members] at hx
    have hremote : x.isLocal = false := by
      rw [← Bool.not_eq_true, hwf.isLocal b x hx, h.named a wa ha]
      exact Ne.symm hne
    exact hauth.acked a wa b x.validity k c ha ⟨x, hx, hremote, rfl, hc⟩ wb hb
  obtain ⟨wa', hwa', hlearns⟩ := @learns_all (wa.disseminate t) ys b wb.localMember.validity
    wa.members.clockAt (by rw [disseminate_members]; exact hwf)
    (by rw [disseminate_eq]; exact halive a wa ha)
    (by rw [disseminate_members, h.named a wa ha]; exact Ne.symm hne) hack hv
  refine ⟨wa', _, hwa', fun k => ⟨fun hk => ?_, fun hk => ?_⟩, hlearns⟩
  · obtain ⟨y, hy, rfl⟩ := List.mem_map.mp hk
    obtain ⟨m, hm, heq⟩ := (hmem y.1).mp (List.mem_map_of_mem hy)
    exact ⟨m, hm, by rw [heq]; rfl⟩
  · obtain ⟨m, hm, rfl⟩ := hk
    obtain ⟨y, hy, heq⟩ := List.mem_map.mp ((hmem _).mpr ⟨m, hm, rfl⟩)
    exact List.mem_map.mpr ⟨y, hy, by rw [heq]; rfl⟩

/-- Once all is acknowledged, nothing is left to tell. -/
theorem learns_told {names : List Name} (h : wa.members.Wf)
    (ht : wa.members.members b = some t)
    (hnames : ∀ k, k ∈ names ↔ ∃ m ∈ wa.members.getGossip t, m.name = k)
    (hlearns : Learns b wa.members.clockAt (wa.disseminate t) wa' names) :
    ∀ t', wa'.members.members b = some t' → wa'.members.getGossip t' = [] := by
  obtain ⟨hwf', -, -, -, hkept, hlearned⟩ := hlearns
  rw [disseminate_members] at hkept hlearned
  obtain ⟨t₁, ht₁, hclock, hdata, hlocal, hknown⟩ := hlearned t ht
  intro t' ht'
  cases ht₁.symm.trans ht'
  refine List.eq_nil_iff_forall_not_mem.mpr fun m' hm' => ?_
  obtain ⟨hentry', hneeds, hkind⟩ := hwf'.mem_getGossip.mp hm'
  -- the entry as it was before the round
  obtain ⟨m, hentry, hc, hd, hl⟩ : ∃ m, wa.members.members m'.name = some m ∧
      m'.clock = m.clock ∧ m'.metadataDict = m.metadataDict ∧ m'.isLocal = m.isLocal := by
    by_cases hn : m'.name = b
    · rw [hn] at hentry' ⊢
      cases ht'.symm.trans hentry'
      exact ⟨t, ht, hclock, hdata, hlocal⟩
    · rw [hkept _ hn] at hentry'
      exact ⟨m', hentry', rfl, rfl, rfl⟩
  have hname : m.name = m'.name := h.name _ _ hentry
  rw [Member.needsGossip, hknown, decide_eq_true_eq] at hneeds
  by_cases hin : m'.name ∈ names
  · rw [if_pos hin, Members.clockAt_some hentry, Option.getD_some, hc] at hneeds
    omega
  · rw [if_neg hin, hc, ← hname] at hneeds
    have hmem : m ∈ wa.members.getGossip t := by
      refine h.mem_getGossip.mpr ⟨by rw [hname]; exact hentry, decide_eq_true hneeds, ?_⟩
      rw [← hl, ← hd]
      exact hkind
    exact hin ((hnames _).mpr ⟨m, hmem, hname⟩)

theorem own_iff (h : C.Sane) (hne : a ≠ b) (ha : C.nodes a = some wa) (hb : C.nodes b = some wb)
    {gs : List Gossip} (hgs : gs.Perm (wa.tells t)) (hhears : Hears a wb wb' gs) :
    wb'.members.dataOf a = wa.members.dataOf a ↔
      (t.needsGossip wa.localMember = true ∨ wb.members.dataOf a = wa.members.dataOf a) := by
  have hwf := h.wf a wa ha
  have hname : wa.localMember.name = a := hwf.localMember_name.trans (h.named a wa ha)
  have hentry : wa.members.members a = some wa.localMember := by
    rw [← h.named a wa ha]
    exact hwf.localMember
  by_cases hneeds : t.needsGossip wa.localMember = true
  · refine iff_of_true ?_ (Or.inl hneeds)
    have hmem : wa.localMember ∈ wa.members.getGossip t :=
      hwf.mem_getGossip.mpr ⟨by rw [hname]; exact hentry, hneeds, Or.inl hwf.localMember_isLocal⟩
    have hg : buildGossip wa.localMember wa.localMember ∈ gs :=
      hgs.mem_iff.mpr (mem_tells.mpr ⟨_, hmem, rfl⟩)
    have hdata := hhears.taken _ hg
      (fun g' hg' hn => tells_unique hwf (hgs.subset hg) (hgs.subset hg') hn)
      (by rw [h.named b wb hb]; exact fun heq => hne (hname.symm.trans heq))
      (h.told a wa ha) (Or.inr hname)
    have hsaid : (buildGossip wa.localMember wa.localMember).name = a := hname
    rw [hsaid] at hdata
    rw [Members.dataOf_some hentry]
    exact hdata
  · -- nothing is said about `a`
    have hstays : wb'.members.dataOf a = wb.members.dataOf a := by
      refine hhears.stays a _ (fun g hg hn => ?_) rfl
      obtain ⟨m, hm, rfl⟩ := mem_tells.mp (hgs.subset hg)
      obtain ⟨hm, hyes, -⟩ := hwf.mem_getGossip.mp hm
      have hma : m.name = a := hn
      rw [hma, hentry] at hm
      cases hm
      exact absurd hyes hneeds
    rw [hstays]
    exact (or_iff_right hneeds).symm

theorem round_of (h : C.Sane) (hpos : wa.members.Positive) (hne : a ≠ b)
    (ha : C.nodes a = some wa) (hb : C.nodes b = some wb)
    (ht : wa.members.members b = some t) {gs : List Gossip} (hgs : gs.Perm (wa.tells t))
    (hhears : Hears a wb wb' gs) {names : List Name}
    (hnames : ∀ k, k ∈ names ↔ ∃ m ∈ wa.members.getGossip t, m.name = k)
    (hlearns : Learns b wa.members.clockAt (wa.disseminate t) wa' names) :
    Round a b wa wb t wa' wb' ↔ wb'.members.dataOf a = wa.members.dataOf a := by
  have hwf := h.wf a wa ha
  have hdata : ∀ n, n ≠ b → wa'.members.dataOf n = wa.members.dataOf n := by
    intro n hn
    rw [Members.dataOf, hlearns.kept n hn, disseminate_members]
    rfl
  refine ⟨fun hround => hround.own.trans (hdata a hne), fun hown => ⟨hown.trans (hdata a hne).symm,
    fun m hm hmb hk hlt => ?_, fun m hm hma hmb hle => ?_, ⟨hhears.status, hhears.metadata⟩,
    learns_told hwf ht hnames hlearns⟩⟩
  · have hg : buildGossip wa.localMember m ∈ gs := hgs.mem_iff.mpr (mem_tells.mpr ⟨m, hm, rfl⟩)
    rw [hdata _ hmb, Members.dataOf_some (hwf.mem_getGossip.mp hm).1]
    exact hhears.taken _ hg
      (fun g' hg' hn => tells_unique hwf (hgs.subset hg) (hgs.subset hg') hn)
      (by rw [h.named b wb hb]; exact hmb) hk (Or.inl hlt)
  · refine hhears.kept m.name hma fun g hg hn => ?_
    obtain ⟨m', hm', rfl⟩ := mem_tells.mp (hgs.subset hg)
    have hentry := (hwf.mem_getGossip.mp hm).1
    obtain ⟨hentry', -, hkind⟩ := hwf.mem_getGossip.mp hm'
    have hname : m'.name = m.name := hn
    rw [hname] at hentry'
    cases hentry.symm.trans hentry'
    -- known metadata have a positive clock, so `b` has an entry
    have hremote : m.isLocal = false := by
      rw [← Bool.not_eq_true, hwf.isLocal _ _ hentry, h.named a wa ha]
      exact hma
    have hknown : m.metadataDict.isSome = true := by
      rw [hremote] at hkind
      exact hkind.resolve_left Bool.false_ne_true
    cases hx : wb.members.members m.name with
    | some x => exact ⟨x, rfl, by rw [Members.clockAt_some hx] at hle; exact hle⟩
    | none =>
      have hzero : wb.members.clockAt m.name = 0 := by rw [Members.clockAt, hx]; rfl
      have hclock := hpos m.name m hentry hknown
      omega

/-- **A round of gossip.** Everything but the metadata of `a` itself is up to date after it, and
those are exactly if `a` tells them or `b` has them. -/
theorem round_iff (C : Cluster) (h : Reach next Initial Steady C) (a b : Name) (wa wb : Worker)
    (t : Member) (hne : a ≠ b) (ha : C.nodes a = some wa) (hb : C.nodes b = some wb)
    (ht : wa.members.members b = some t) : Succeeds a b wa wb t ↔
      (t.needsGossip wa.localMember = true ∨ wb.members.dataOf a = wa.members.dataOf a) := by
  have hsane := (reach_bounded h).1
  have hauth := reach_authentic h
  have halive := reach_alive h
  have hpos := (reach_positive h).1 a wa ha
  constructor
  · intro hall
    -- the packets in the order they were sent
    have hinOrder : ∀ packets : List Packet,
        ((packets.map fun packet => (packet, still)).map Prod.fst).Perm packets := by
      intro packets
      rw [List.map_map]
      exact List.Perm.of_eq (List.map_id packets)
    obtain ⟨wb', hwb', hacks⟩ := hall _ (hinOrder _)
    obtain ⟨x, gs, hx, hgs, hhears⟩ := hears_round (t := t) hsane halive ha hb (hinOrder _)
    cases hwb'.symm.trans hx
    obtain ⟨wa', hwa', hround⟩ := hacks _ (hinOrder _)
    obtain ⟨y, names, hy, hnames, hlearns⟩ :=
      learns_round hsane hauth halive hne ha hb hgs hhears (hinOrder _)
    cases hwa'.symm.trans hy
    exact (own_iff hsane hne ha hb hgs hhears).mp
      ((round_of hsane hpos hne ha hb ht hgs hhears hnames hlearns).mp hround)
  · intro hcond gossips hperm
    obtain ⟨wb', gs, hwb', hgs, hhears⟩ := hears_round hsane halive ha hb hperm
    refine ⟨wb', hwb', fun acks hacks => ?_⟩
    obtain ⟨wa', names, hwa', hnames, hlearns⟩ :=
      learns_round hsane hauth halive hne ha hb hgs hhears hacks
    exact ⟨wa', hwa', (round_of hsane hpos hne ha hb ht hgs hhears hnames hlearns).mpr
      ((own_iff hsane hne ha hb hgs hhears).mpr hcond)⟩

/-- `a` has changed its metadata and has told `b` before, but not about the change. -/
theorem round_iff_changed : ∃ C wa wb t, run next pair (told ++ changed.take 1) = some C ∧
    C.nodes "a" = some wa ∧ C.nodes "b" = some wb ∧ wa.members.members "b" = some t ∧
    Succeeds "a" "b" wa wb t := by
  have hrun : (run next pair (told ++ changed.take 1)).bind (fun C => (C.nodes "a").bind fun wa =>
      (C.nodes "b").bind fun _ => (wa.members.members "b").map fun t =>
        t.needsGossip wa.localMember) = some true := by decide +kernel
  obtain ⟨C, hC, hrun⟩ := Option.bind_eq_some_iff.mp hrun
  obtain ⟨wa, ha, hrun⟩ := Option.bind_eq_some_iff.mp hrun
  obtain ⟨wb, hb, hrun⟩ := Option.bind_eq_some_iff.mp hrun
  obtain ⟨t, ht, hneeds⟩ := Option.map_eq_some_iff.mp hrun
  have hreach := (Reach.init pair_initial).run (G := Steady) (by decide +kernel) hC
  exact ⟨C, wa, wb, t, hC, ha, hb, ht,
    (round_iff C hreach "a" "b" wa wb t (by decide) ha hb ht).mpr (Or.inl hneeds)⟩

/-- After late gossip, `a` has nothing to tell `b`, which holds other metadata for `a`. -/
theorem not_succeeds : ¬ ∀ (C : Cluster), Reach next Initial Steady C →
    ∀ (a b : Name) (wa wb : Worker) (t : Member), a ≠ b → C.nodes a = some wa →
      C.nodes b = some wb → wa.members.members b = some t → Succeeds a b wa wb t := by
  intro h
  have hrun : (run next pair late).bind (fun C => (C.nodes "a").bind fun wa =>
      (C.nodes "b").bind fun wb => (wa.members.members "b").map fun _ =>
        (wa.members.dataOf "a", wb.members.dataOf "a")) = some (some (colour 1), some ∅) := by
    decide +kernel
  have hqueue : ∀ C ∈ run next pair late, ∀ wa ∈ C.nodes "a", ∀ t ∈ wa.members.members "b",
      (wa.disseminate t).sendQueue = [] := by decide +kernel
  obtain ⟨C, hC, hrun⟩ := Option.bind_eq_some_iff.mp hrun
  obtain ⟨wa, ha, hrun⟩ := Option.bind_eq_some_iff.mp hrun
  obtain ⟨wb, hb, hrun⟩ := Option.bind_eq_some_iff.mp hrun
  obtain ⟨t, ht, heq⟩ := Option.map_eq_some_iff.mp hrun
  obtain ⟨hdata, hdata'⟩ := Prod.mk.inj heq
  have hreach := (Reach.init pair_initial).run (G := Steady) (by decide +kernel) hC
  obtain ⟨wb', hwb', hacks⟩ := h C hreach "a" "b" wa wb t (by decide) ha hb ht []
    (by rw [hqueue C hC wa ha t ht]; exact List.Perm.nil)
  cases hwb'
  have hnone : wb.receipts = [] := by
    rw [receipts, (reach_bounded hreach).1.drained "b" wb hb]
    rfl
  obtain ⟨wa', hwa', hround⟩ := hacks [] (by rw [hnone]; exact List.Perm.nil)
  cases hwa'
  have hown := hround.own
  rw [disseminate_members, hdata', hdata] at hown
  exact absurd hown (by decide +kernel)

end Cluster

end Swim
