import Swim.Worker
import Swim.MembersInvariant

/-!
# Swim.WorkerEffect

What a step of a worker does to the member table, the timers and the send queue.

* `Members.handled` — the pass of `_run_handler`, as seen by the table alone. The worker's pass
  does exactly this to its table (`runHandler_eq`).
* `Looks` — what calls of `get` do to a table: names are added, known clocks may be forgotten.
* `handled_chatter`, `handled_gossip`, `handled_gossipAck` — the pass for each kind of packet.
* `reply` — what the pass sends after the acknowledgements for listening members.
* `Action.edit` — the `update` call an action makes, if any.
* `step_cases` — every step handles a packet, makes one `update` call, or only sends.
-/

namespace Swim

def Packet.chatter : Packet → Bool
  | ping _ | pingReq _ _ | ack _ => true
  | gossip _ | gossipAck _ => false

/-- `m'` is `m`, with another validity or with known clocks forgotten. -/
def Member.Same (m m' : Member) : Prop :=
  ∃ validity knownClocks, m' = { m with validity, knownClocks } ∧
    ∀ k c, knownClocks k = some c → m.knownClocks k = some c

theorem Member.Same.refl (m : Member) : m.Same m := ⟨_, _, rfl, fun _ _ h => h⟩

theorem Member.Same.trans {m m' m'' : Member} (h : m.Same m') (h' : m'.Same m'') : m.Same m'' := by
  obtain ⟨v, known, rfl, hk⟩ := h
  obtain ⟨v', known', rfl, hk'⟩ := h'
  exact ⟨v', known', rfl, fun k c hc => hk k c (hk' k c hc)⟩

section Same

variable {m m' : Member} (h : m.Same m')
include h

theorem Member.Same.clock : m'.clock = m.clock := by obtain ⟨_, _, rfl, _⟩ := h; rfl
theorem Member.Same.status : m'.status = m.status := by obtain ⟨_, _, rfl, _⟩ := h; rfl
theorem Member.Same.metadataDict : m'.metadataDict = m.metadataDict := by
  obtain ⟨_, _, rfl, _⟩ := h; rfl
theorem Member.Same.isLocal : m'.isLocal = m.isLocal := by obtain ⟨_, _, rfl, _⟩ := h; rfl
theorem Member.Same.known {k : Name} {c : Int} (hc : m'.knownClocks k = some c) :
    m.knownClocks k = some c := by
  obtain ⟨_, _, rfl, hk⟩ := h; exact hk k c hc

end Same

namespace Members

structure Looks (M M' : Members) : Prop where
  localName : M'.localName = M.localName
  nextClock : M'.nextClock = M.nextClock
  localMember : M'.localMember = M.localMember
  entry : ∀ n m, M.members n = some m → ∃ m', M'.members n = some m' ∧ m.Same m'
  origin : ∀ n m', M'.members n = some m' → (∃ m, M.members n = some m ∧ m.Same m') ∨
    M.members n = none ∧ ∃ env, (Member.new n false env).Same m'

theorem Looks.trans {M M' M'' : Members} (h : M.Looks M') (h' : M'.Looks M'') : M.Looks M'' where
  localName := h'.localName.trans h.localName
  nextClock := h'.nextClock.trans h.nextClock
  localMember := h'.localMember.trans h.localMember
  entry := by
    intro n m hm
    obtain ⟨m', hm', hs⟩ := h.entry n m hm
    obtain ⟨m'', hm'', hs'⟩ := h'.entry n m' hm'
    exact ⟨m'', hm'', hs.trans hs'⟩
  origin := by
    intro n m'' hm''
    obtain ⟨m', hm', hs'⟩ | ⟨hnone, env, hs'⟩ := h'.origin n m'' hm''
    · obtain ⟨m, hm, hs⟩ | ⟨hnone, env, hs⟩ := h.origin n m' hm'
      · exact Or.inl ⟨m, hm, hs.trans hs'⟩
      · exact Or.inr ⟨hnone, env, hs.trans hs'⟩
    · refine Or.inr ⟨?_, env, hs'⟩
      cases hm : M.members n with
      | none => rfl
      | some m =>
        obtain ⟨m', hm', -⟩ := h.entry n m hm
        rw [hnone] at hm'; cases hm'

theorem Looks.grows {M M' : Members} (h : M.Looks M') : M.Grows M' where
  localName := h.localName
  nextClock := le_of_eq h.nextClock.symm
  entry := by
    intro n m hm
    obtain ⟨m', hm', hs⟩ := h.entry n m hm
    exact ⟨m', hm', le_of_eq hs.clock.symm, by rw [hs.metadataDict]; exact id⟩

section Get

variable {M : Members} {n : Name} {validity : Option Bytes} {env : Env}

theorem same_got (M : Members) (n : Name) (validity : Option Bytes) (env : Env) :
    (M.found n env).Same (M.got n validity env) := by
  obtain h | ⟨v, -, -, h⟩ := got_cases M n validity env
  · rw [h]; exact .refl _
  · rw [h]; exact ⟨v, _, rfl, by rintro k c ⟨⟩⟩

theorem Keyed.got_local (h : M.Keyed) : M.got M.localName validity env = M.localMember := by
  have hfound : M.found M.localName env = M.localMember := found_of_some h.localMember
  obtain hg | ⟨v, -, hl, -⟩ := got_cases M M.localName validity env
  · rw [hg, hfound]
  · rw [hfound, h.localMember_isLocal] at hl; cases hl

theorem Keyed.looks_get (h : M.Keyed) : M.Looks (M.get n validity env).1 where
  localName := get_localName
  nextClock := get_nextClock
  localMember := by
    rw [Members.localMember, Members.localMember, get_localName]
    by_cases hn : M.localName = n
    · subst hn; rw [h.get_self, h.got_local]; rfl
    · rw [h.get_of_ne hn]
  entry := by
    intro k m hm
    by_cases hk : k = n
    · subst hk
      have hs := same_got M k validity env
      rw [found_of_some hm] at hs
      exact ⟨_, h.get_self, hs⟩
    · exact ⟨m, by rw [h.get_of_ne hk]; exact hm, .refl m⟩
  origin := by
    intro k m' hm'
    by_cases hk : k = n
    · subst hk
      rw [h.get_self] at hm'
      cases hm'
      have hs := same_got M k validity env
      cases hc : M.members k with
      | some m => rw [found_of_some hc] at hs; exact Or.inl ⟨m, rfl, hs⟩
      | none => rw [found_of_none hc] at hs; exact Or.inr ⟨rfl, env, hs⟩
    · rw [h.get_of_ne hk] at hm'
      exact Or.inl ⟨m', hm', .refl m'⟩

theorem localMember_source_write {M' : Members} {m m' : Member} (hm : M.members n = some m)
    (hmem : M'.members = Function.update M.members n (some m'))
    (hln : M'.localName = M.localName) (hsrc : m'.source = m.source) :
    M'.localMember.source = M.localMember.source := by
  rw [Members.localMember, Members.localMember, hln, hmem]
  by_cases hn : M.localName = n
  · subst hn; rw [Function.update_self, hm]; exact hsrc
  · rw [Function.update_of_ne hn]

end Get

def met (M : Members) (packet : Packet) (env : Env) : Members × Member :=
  M.get packet.source.name (some packet.source.validity) env

def looked (M : Members) (packet : Packet) (name : Name) (env : Env) : Members × Member :=
  (M.met packet env).1.get name none env

def handled (M : Members) (packet : Packet) (env : Env) : Py Members :=
  match packet with
  | .ping _ | .ack _ => .ok (M.met packet env).1
  | .pingReq _ target => .ok (M.looked packet target env).1
  | .gossip gossip =>
    let (M', member) := M.looked packet gossip.name env
    M'.apply member (M.met packet env).2 gossip.clock gossip.status gossip.metadata env
  | .gossipAck gossipAck =>
    let (M', member) := M.looked packet gossipAck.name env
    M'.ackGossip member (M.met packet env).2 gossipAck.clock

section Handled

variable {M : Members} {packet : Packet} {name : Name} {env : Env}

theorem Keyed.met (h : M.Keyed) : (M.met packet env).1.Keyed ∧ M.Looks (M.met packet env).1 ∧
    (M.met packet env).1.members packet.source.name = some (M.met packet env).2 ∧
    (M.met packet env).2.name = packet.source.name := by
  rw [Members.met, get_snd]
  exact ⟨h.get, h.looks_get, h.get_self, h.got_name⟩

theorem Keyed.looked (h : M.Keyed) : (M.looked packet name env).1.Keyed ∧
    M.Looks (M.looked packet name env).1 ∧
    (M.looked packet name env).1.members name = some (M.looked packet name env).2 ∧
    (M.looked packet name env).2.name = name ∧
    (M.looked packet name env).1.members packet.source.name = some (M.met packet env).2 := by
  obtain ⟨hk, hl, hsrc, -⟩ := @Keyed.met M packet env h
  have hkeep : (M.looked packet name env).1.members packet.source.name =
      some (M.met packet env).2 := by
    rw [Members.looked]
    by_cases hn : packet.source.name = name
    · subst hn; rw [hk.get_self]; exact congrArg some (found_of_some hsrc)
    · rw [hk.get_of_ne hn]; exact hsrc
  refine ⟨hk.get, hl.trans hk.looks_get, ?_, ?_, hkeep⟩
  · rw [Members.looked, get_snd]; exact hk.get_self
  · rw [Members.looked, get_snd]; exact hk.got_name

theorem Keyed.looked_same {packet : Packet} (h : M.Keyed) :
    (M.found name env).Same (M.looked packet name env).2 := by
  obtain ⟨hk, -, hsrc, -⟩ := @Keyed.met M packet env h
  have hlooked : (M.looked packet name env).2 = (M.met packet env).1.found name env := by
    rw [Members.looked, get_snd]; rfl
  rw [hlooked]
  by_cases hn : name = packet.source.name
  · subst hn
    rw [found_of_some hsrc, Members.met, get_snd]
    exact same_got M _ _ env
  · have hmem : (M.met packet env).1.members name = M.members name := h.get_of_ne hn
    have heq : (M.met packet env).1.found name env = M.found name env := by rw [found, found, hmem]
    rw [heq]; exact .refl _

theorem Wf.looked (h : M.Wf) : (M.looked packet name env).1.Wf := h.get.get

/-- The views agree after any packet, also one that is not honest. -/
theorem Keyed.handled (h : M.Keyed) : (M.handled packet env).after.Keyed := by
  cases packet with
  | ping | ack => exact h.met.1
  | pingReq => exact h.looked.1
  | gossip g =>
    obtain ⟨hk, -, hm, hname, -⟩ := @Keyed.looked M (.gossip g) g.name env h
    have hm' : (M.looked (.gossip g) g.name env).1.members
        (M.looked (.gossip g) g.name env).2.name = some (M.looked (.gossip g) g.name env).2 := by
      rw [hname]; exact hm
    exact hk._update hm'
  | gossipAck a =>
    obtain ⟨hk, -, -, -, hkeep⟩ := @Keyed.looked M (.gossipAck a) a.name env h
    rw [← (@Keyed.met M (.gossipAck a) env h).2.2.2] at hkeep
    exact hk.ackGossip hkeep

theorem Wf.handled_chatter (h : M.Wf) (hp : packet.chatter = true) :
    ∃ M', M.handled packet env = .ok M' ∧ M'.Wf ∧ M.Looks M' := by
  cases packet with
  | ping | ack => exact ⟨_, rfl, h.get, h.toKeyed.met.2.1⟩
  | pingReq _ target => exact ⟨_, rfl, h.looked, h.toKeyed.looked.2.1⟩
  | gossip | gossipAck => cases hp

theorem Wf.handled_gossip (h : M.Wf) {gossip : Gossip} (hr : gossip.status.real) :
    ∃ M₁ member source M', M.handled (.gossip gossip) env = .ok M' ∧
      M₁.Wf ∧ M.Looks M₁ ∧ M₁.members gossip.name = some member ∧ member.name = gossip.name ∧
      source.name = gossip.source.name ∧ M'.Wf ∧ M₁.Grows M' ∧
      M'.members = Function.update M₁.members gossip.name
        (some (member.applied (some source) gossip.clock M.nextClock (some gossip.status)
          gossip.metadata env.now)) ∧
      (M.found gossip.name env).Same member := by
  have hwf := @Wf.looked M (.gossip gossip) gossip.name env h
  obtain ⟨-, hl, hmem, hname, -⟩ := @Keyed.looked M (.gossip gossip) gossip.name env h.toKeyed
  have hsrc := (@Keyed.met M (.gossip gossip) env h.toKeyed).2.2.2
  obtain ⟨M', hM', hwf', hg, hm', -⟩ := @Wf._update _
    (M.looked (.gossip gossip) gossip.name env).2 (some (M.met (.gossip gossip) env).2)
    gossip.clock (some gossip.status) gossip.metadata env hwf (by rw [hname]; exact hmem)
    (by rintro s ⟨⟩; exact hr)
  rw [hname, hl.nextClock] at hm'
  exact ⟨_, _, _, M', hM', hwf, hl, hmem, hname, hsrc, hwf', hg, hm', h.toKeyed.looked_same⟩

theorem Wf.handled_gossipAck (h : M.Wf) (gossipAck : GossipAck) :
    ∃ M₁ source, M₁.Wf ∧ M.Looks M₁ ∧ M₁.members source.name = some source ∧
      source.name = gossipAck.source.name ∧
      M.handled (.gossipAck gossipAck) env =
        if gossipAck.clock ≤ M.nextClock
        then .ok (M₁.put (acked source gossipAck.name gossipAck.clock))
        else .error ⟨.assertion, M₁⟩ := by
  have hwf := @Wf.looked M (.gossipAck gossipAck) gossipAck.name env h
  obtain ⟨-, hl, -, hname, hkeep⟩ :=
    @Keyed.looked M (.gossipAck gossipAck) gossipAck.name env h.toKeyed
  have hsrc := (@Keyed.met M (.gossipAck gossipAck) env h.toKeyed).2.2.2
  refine ⟨_, _, hwf, hl, by rw [hsrc]; exact hkeep, hsrc, ?_⟩
  have hunfold : M.handled (.gossipAck gossipAck) env =
      (M.looked (.gossipAck gossipAck) gossipAck.name env).1.ackGossip
        (M.looked (.gossipAck gossipAck) gossipAck.name env).2
        (M.met (.gossipAck gossipAck) env).2 gossipAck.clock := rfl
  rw [hunfold, ackGossip, hl.nextClock, hname]
  rfl

theorem Wf.handled (h : M.Wf) (hp : packet.Honest) :
    (M.handled packet env).after.Wf ∧ M.Grows (M.handled packet env).after := by
  have hchatter : packet.chatter = true →
      (M.handled packet env).after.Wf ∧ M.Grows (M.handled packet env).after := by
    intro hc
    obtain ⟨M', hM', hwf, hl⟩ := @Wf.handled_chatter M packet env h hc
    rw [hM']; exact ⟨hwf, hl.grows⟩
  cases packet with
  | ping | pingReq | ack => exact hchatter rfl
  | gossip g =>
    obtain ⟨M₁, m, source, M', hM', -, hl, -, -, -, hwf, hg, -⟩ := h.handled_gossip hp
    rw [hM']; exact ⟨hwf, hl.grows.trans hg⟩
  | gossipAck a =>
    obtain ⟨M₁, source, hwf, hl, hs, -, hM'⟩ := h.handled_gossipAck a
    rw [hM']
    split
    · exact ⟨hwf.put_acked hs _, hl.grows.trans (grows_put_acked hs _)⟩
    · exact ⟨hwf, hl.grows⟩

theorem Wf.handled_localSource (h : M.Wf) (hp : packet.Honest) :
    (M.handled packet env).after.localMember.source = M.localMember.source := by
  have hchatter : packet.chatter = true →
      (M.handled packet env).after.localMember.source = M.localMember.source := by
    intro hc
    obtain ⟨M', hM', -, hl⟩ := @Wf.handled_chatter M packet env h hc
    rw [hM', Py.after_ok, hl.localMember]
  cases packet with
  | ping | pingReq | ack => exact hchatter rfl
  | gossip g =>
    obtain ⟨M₁, m, source, M', hM', -, hl, hm, -, -, -, hg, hmem, -⟩ := h.handled_gossip hp
    rw [hM', Py.after_ok, localMember_source_write hm hmem hg.localName (by simp [Member.source]),
      hl.localMember]
  | gossipAck a =>
    obtain ⟨M₁, source, -, hl, hs, -, hM'⟩ := h.handled_gossipAck a
    rw [hM', ← hl.localMember]
    split
    · exact localMember_source_write hs (put_acked_members _) rfl rfl
    · rfl

end Handled

end Members

namespace Worker

variable {w w' : Worker} {packet : Packet} {env : Env}

theorem sendAll_eq (targets : List Name) (packet : Packet) : w.sendAll targets packet =
    { w with sendQueue := w.sendQueue ++ targets.map fun target => (target, packet) } := by
  rw [sendAll]
  induction targets generalizing w with
  | nil => simp
  | cons target targets ih => rw [List.foldl_cons, ih, send]; simp

def relayed (w : Worker) (packet : Packet) (env : Env) : List (Name × Packet) :=
  (w.listening (w.members.met packet env).2.name).map fun target =>
    (target, .ack (w.members.met packet env).2.source)

theorem greet_eq : w.greet packet env =
    ({ w with
        members := (w.members.met packet env).1
        events := fun event =>
          if event ∈ w.waiting (w.members.met packet env).2.name then true else w.events event
        listening := Function.update w.listening (w.members.met packet env).2.name []
        sendQueue := w.sendQueue ++ w.relayed packet env },
      (w.members.met packet env).2) := by
  simp only [greet, get, notifyWaiting, getListening, sendAll_eq]
  rfl

section Handler

theorem addListening_eq (member target : Name) : w.addListening member target =
    { w with
      listening := if member ∈ w.listening target then w.listening
        else Function.update w.listening target (w.listening target ++ [member]) } := by
  unfold addListening
  split <;> rfl

theorem handleStatus_eq (target : Name) (status : Status) : w.handleStatus target status =
    { w with
      suspect := if status = .suspect then insert target w.suspect
        else w.suspect.erase target } := by
  unfold handleStatus
  split <;> rfl

def listeningAfter (packet : Packet) (listening : Name → List Name) : Name → List Name :=
  let listening := Function.update listening packet.source.name []
  match packet with
  | .pingReq source target =>
    if source.name ∈ listening target then listening
    else Function.update listening target (listening target ++ [source.name])
  | _ => listening

def timersAfter (packet : Packet) (suspect : Finset Name) : Finset Name :=
  match packet with
  | .gossip g => if g.status = .suspect then insert g.name suspect else suspect.erase g.name
  | _ => suspect

def reply (w : Worker) (packet : Packet) : List (Name × Packet) :=
  match packet with
  | .ping source => [(source.name, .ack w.localMember.source)]
  | .pingReq _ target => [(target, .ping w.localMember.source)]
  | .gossip g => [(g.source.name, .gossipAck (gossipReply w.localMember g))]
  | .ack _ | .gossipAck _ => []

/-- What the pass queues: the acknowledgements for listening members and, unless it raised, the
answer. -/
def queued (w : Worker) (packet : Packet) (env : Env) : List (Name × Packet) :=
  w.relayed packet env ++
    match w.members.handled packet env with
    | .ok M => reply { w with members := M } packet
    | .error _ => []

def passed (w : Worker) (packet : Packet) (env : Env) (M : Members) : Worker :=
  { w with
    members := M
    events := fun event =>
      if event ∈ w.waiting packet.source.name then true else w.events event
    listening := listeningAfter packet w.listening
    suspect := timersAfter packet w.suspect
    sendQueue := w.sendQueue ++ w.queued packet env }

/-- **The handler's pass**, field by field. -/
theorem runHandler_eq (h : w.members.Keyed) :
    w.runHandler packet env = (w.members.handled packet env).inside (w.passed packet env) := by
  obtain ⟨-, -, -, hsrc⟩ := @Members.Keyed.met w.members packet env h
  have hname : ∀ name, ((w.members.met packet env).1.get name none env).2.name = name := by
    intro name
    exact (@Members.Keyed.looked w.members packet name env h).2.2.2.1
  cases packet with
  | ping source =>
    simp only [runHandler, greet_eq, send, hsrc]
    simp [Members.handled, passed, queued, reply, localMember, timersAfter, listeningAfter]
  | ack source =>
    simp only [runHandler, greet_eq, hsrc]
    simp [Members.handled, passed, queued, reply, timersAfter, listeningAfter]
  | pingReq source target =>
    simp only [runHandler, greet_eq, get, send, addListening_eq, hsrc, hname]
    simp only [Members.handled, Members.looked, passed, queued, reply, localMember, timersAfter,
      Py.inside_ok, List.append_assoc]
    rfl
  | gossip g =>
    have happly : ((w.members.met (.gossip g) env).1.get g.name none env).1.apply
        ((w.members.met (.gossip g) env).1.get g.name none env).2
        (w.members.met (.gossip g) env).2 g.clock g.status g.metadata env =
        w.members.handled (.gossip g) env := rfl
    simp only [runHandler, greet_eq, get, applyGossip, handleStatus_eq, withMembers, hsrc, hname,
      happly]
    cases hr : w.members.handled (.gossip g) env with
    | ok M => simp [passed, queued, hr, reply, timersAfter, listeningAfter, send, localMember]
    | error r => simp [passed, queued, hr, timersAfter, listeningAfter, Py.inside, Py.andThen]
  | gossipAck a =>
    have hack : ((w.members.met (.gossipAck a) env).1.get a.name none env).1.ackGossip
        ((w.members.met (.gossipAck a) env).1.get a.name none env).2
        (w.members.met (.gossipAck a) env).2 a.clock = w.members.handled (.gossipAck a) env := rfl
    simp only [runHandler, greet_eq, get, withMembers, hsrc, hack]
    cases hr : w.members.handled (.gossipAck a) env with
    | ok M => simp [passed, queued, hr, reply, timersAfter, listeningAfter]
    | error r => simp [passed, queued, hr, timersAfter, listeningAfter, Py.inside]

end Handler

/-! ## The other actions -/

def gossipFor (w : Worker) (target : Member) : List (Name × Packet) :=
  (w.members.getGossip target).map fun member =>
    (target.name, .gossip (buildGossip w.localMember member))

theorem disseminate_eq (target : Member) :
    w.disseminate target = { w with sendQueue := w.sendQueue ++ w.gossipFor target } := by
  have hfold : ∀ (l : List Member) (w' : Worker), w'.localMember = w.localMember →
      l.foldl (fun w member => w.send target.name (.gossip (buildGossip w.localMember member))) w' =
        { w' with sendQueue := w'.sendQueue ++ l.map fun member =>
          (target.name, .gossip (buildGossip w.localMember member)) } := by
    intro l
    induction l with
    | nil => intro w' _; simp
    | cons m l ih =>
      intro w' hw'
      have hrest := ih (w'.send target.name (.gossip (buildGossip w'.localMember m))) hw'
      rw [List.foldl_cons, hrest, hw', send]
      simp
  exact hfold _ w rfl

@[simp] theorem disseminate_members (target : Member) :
    (w.disseminate target).members = w.members := by rw [disseminate_eq]

theorem peer_eq_some {name : Name} {m : Member} :
    w.peer name = some m ↔ w.members.members name = some m ∧ m.isLocal = false := by
  simp [peer, Option.filter_eq_some_iff]

namespace Action

/-- The packets are honest and the application uses real statuses. -/
def Honest : Action → Prop
  | receive packet => packet.Honest
  | update _ newStatus _ => ∀ s ∈ newStatus, s.real
  | _ => True

instance : DecidablePred Honest
  | receive packet => inferInstanceAs (Decidable packet.Honest)
  | update _ newStatus _ => inferInstanceAs (Decidable (∀ s ∈ newStatus, s.real = true))
  | ping _ | pingReq _ _ | verdict _ _ | expire _ | disseminate _ => isTrue trivial

def edit : Action → Option (Name × Option Status × Option Metadata)
  | verdict target online => some (target, some (if online then .online else .suspect), none)
  | expire target => some (target, some .offline, none)
  | update name newStatus newMetadata => some (name, newStatus, newMetadata)
  | receive _ | ping _ | pingReq _ _ | disseminate _ => none

def timers (action : Action) (suspect : Finset Name) : Finset Name :=
  match action with
  | receive packet => timersAfter packet suspect
  | verdict target online => if online then suspect.erase target else insert target suspect
  | expire target => suspect.erase target
  | ping _ | pingReq _ _ | disseminate _ | update _ _ _ => suspect

theorem Honest.edit {action : Action} (h : action.Honest) {name : Name} {status : Option Status}
    {metadata : Option Metadata} (he : action.edit = some (name, status, metadata)) :
    ∀ s ∈ status, s.real := by
  cases action with
  | verdict target online => cases online <;> · cases he; rintro s ⟨⟩; rfl
  | expire => cases he; rintro s ⟨⟩; rfl
  | update => cases he; exact h
  | receive | ping | pingReq | disseminate => cases he

end Action

def outgoing (w : Worker) (action : Action) : List (Name × Packet) :=
  match action with
  | .ping target => [(target, .ping w.localMember.source)]
  | .pingReq target indirects =>
    indirects.map fun indirect => (indirect, .pingReq w.localMember.source target)
  | .disseminate target => ((w.peer target).map w.gossipFor).getD []
  | .receive _ | .verdict _ _ | .expire _ | .update _ _ _ => []

theorem update_ok (h : w.members.Wf) {name : Name} {m : Member}
    (hm : w.members.members name = some m) {status : Option Status} {metadata : Option Metadata}
    (hs : ∀ s ∈ status, s.real) : ∃ M', w.members.update m status metadata env = .ok M' ∧
      M'.Wf ∧ w.members.Grows M' ∧ M'.members = Function.update w.members.members name (some
        (m.applied none w.members.nextClock w.members.nextClock status metadata env.now)) := by
  have hname := h.name _ _ hm
  subst hname
  obtain ⟨M', hM', hwf, hg, hmem, -⟩ := @Members.Wf._update w.members m none w.members.nextClock
    status metadata env h hm hs
  exact ⟨M', hM', hwf, hg, hmem⟩

theorem step_receive (hs : w.step (.receive packet) env = some w') :
    w.failed = none ∧ w' = w.receive packet env := by
  by_cases hf : w.failed = none
  · rw [step, if_pos hf] at hs
    exact ⟨hf, (Option.some.inj hs).symm⟩
  · rw [step, if_neg hf] at hs; cases hs

theorem step_expire {target : Name} (hs : w.step (.expire target) env = some w') :
    target ∈ w.suspect ∧ ∃ m, w.members.members target = some m ∧
      w' = (w.suspectWait m env).after := by
  by_cases ht : target ∈ w.suspect
  · rw [step, if_pos ht] at hs
    obtain ⟨m, hm, rfl⟩ := Option.map_eq_some_iff.mp hs
    exact ⟨ht, m, hm, rfl⟩
  · rw [step, if_neg ht] at hs; cases hs

/-- **Inversion of a step.** It handles a packet, makes one `update` call, or only sends. -/
theorem step_cases {action : Action} (h : w.members.Wf) (ha : action.Honest)
    (hs : w.step action env = some w') :
    (∃ packet, action = .receive packet ∧ w.failed = none ∧ w' = w.receive packet env) ∨
    (∃ name status metadata m M', action.edit = some (name, status, metadata) ∧
      (∀ s ∈ status, s.real) ∧ w.members.members name = some m ∧
      (∀ target online, action = .verdict target online → m.isLocal = false) ∧
      (∀ target, action = .expire target → target ∈ w.suspect) ∧
      w.members.update m status metadata env = .ok M' ∧
      w' = { w with members := M', suspect := action.timers w.suspect }) ∨
    (action.edit = none ∧ (∀ packet, action ≠ .receive packet) ∧
      w' = { w with sendQueue := w.sendQueue ++ w.outgoing action }) := by
  cases action with
  | receive packet => exact Or.inl ⟨packet, rfl, step_receive hs⟩
  | ping target =>
    obtain ⟨m, hm, rfl⟩ := Option.map_eq_some_iff.mp hs
    refine Or.inr (Or.inr ⟨rfl, by rintro p ⟨⟩, ?_⟩)
    rw [h.name _ _ (peer_eq_some.mp hm).1]; rfl
  | pingReq target indirects =>
    obtain ⟨m, hm, rfl⟩ := Option.map_eq_some_iff.mp hs
    refine Or.inr (Or.inr ⟨rfl, by rintro p ⟨⟩, ?_⟩)
    rw [h.name _ _ (peer_eq_some.mp hm).1, checkPingReq, sendAll_eq]; rfl
  | verdict target online =>
    obtain ⟨m, hm, rfl⟩ := Option.map_eq_some_iff.mp hs
    obtain ⟨hm, hl⟩ := peer_eq_some.mp hm
    have hr := ha.edit (Eq.refl (Action.verdict target online).edit)
    obtain ⟨M', hM', -⟩ := @update_ok w env h target m hm _ none hr
    refine Or.inr (Or.inl ⟨_, _, _, m, M', rfl, hr, hm, fun _ _ _ => hl, by rintro t ⟨⟩, hM', ?_⟩)
    have hname := h.name _ _ hm
    cases online
    all_goals
      simp only [Bool.false_eq_true, if_true, if_false] at hM'
      simp [checkVerdict, handleStatus, withMembers, Action.timers, hM', hname]
  | expire target =>
    obtain ⟨ht, m, hm, rfl⟩ := step_expire hs
    have hr := ha.edit (Eq.refl (Action.expire target).edit)
    obtain ⟨M', hM', -⟩ := @update_ok w env h target m hm _ none hr
    refine Or.inr (Or.inl ⟨_, _, _, m, M', rfl, hr, hm, by rintro t o ⟨⟩,
      by rintro t ⟨⟩; exact ht, hM', ?_⟩)
    have hname := h.name _ _ hm
    simp [suspectWait, withMembers, hM', hname, Action.timers]
  | disseminate target =>
    obtain ⟨m, hm, rfl⟩ := Option.map_eq_some_iff.mp hs
    refine Or.inr (Or.inr ⟨rfl, by rintro p ⟨⟩, ?_⟩)
    rw [disseminate_eq, outgoing, hm]; rfl
  | update name newStatus newMetadata =>
    obtain ⟨m, hm, rfl⟩ := Option.map_eq_some_iff.mp hs
    obtain ⟨M', hM', -⟩ := @update_ok w env h name m hm newStatus newMetadata ha
    refine Or.inr (Or.inl ⟨_, _, _, m, M', rfl, ha, hm, by rintro t o ⟨⟩, by rintro t ⟨⟩, hM', ?_⟩)
    simp [withMembers, hM', Action.timers]

/-! ## Handling a packet -/

section Receive

theorem receive_eq (h : w.members.Keyed) : w.receive packet env =
    { w.passed packet env (w.members.handled packet env).after with
      failed := (w.members.handled packet env).raised } := by
  rw [receive, runHandler_eq h, Py.after_inside, Py.raised_inside]

variable (h : w.members.Keyed)
include h

theorem receive_members :
    (w.receive packet env).members = (w.members.handled packet env).after := by
  rw [receive_eq h]; rfl

theorem receive_failed :
    (w.receive packet env).failed = (w.members.handled packet env).raised := by rw [receive_eq h]

theorem receive_suspect : (w.receive packet env).suspect = timersAfter packet w.suspect := by
  rw [receive_eq h]; rfl

theorem receive_events : (w.receive packet env).events = fun event =>
    if event ∈ w.waiting packet.source.name then true else w.events event := by
  rw [receive_eq h]; rfl

theorem receive_waiting : (w.receive packet env).waiting = w.waiting := by rw [receive_eq h]; rfl

end Receive

theorem step_members {action : Action} (h : w.members.Keyed) (hs : w.step action env = some w') :
    (∃ packet, action = .receive packet ∧
      w'.members = (w.members.handled packet env).after) ∨
    (∃ name status metadata m, action.edit = some (name, status, metadata) ∧
      w.members.members name = some m ∧
      w'.members = (w.members.update m status metadata env).after) ∨
    (action.edit = none ∧ (∀ packet, action ≠ .receive packet) ∧ w'.members = w.members) := by
  cases action with
  | receive packet =>
    rw [(step_receive hs).2]
    exact Or.inl ⟨packet, rfl, receive_members h⟩
  | ping target =>
    obtain ⟨m, -, rfl⟩ := Option.map_eq_some_iff.mp hs
    exact Or.inr (Or.inr ⟨rfl, by rintro p ⟨⟩, rfl⟩)
  | pingReq target indirects =>
    obtain ⟨m, -, rfl⟩ := Option.map_eq_some_iff.mp hs
    exact Or.inr (Or.inr ⟨rfl, by rintro p ⟨⟩, by rw [checkPingReq, sendAll_eq]⟩)
  | verdict target online =>
    obtain ⟨m, hm, rfl⟩ := Option.map_eq_some_iff.mp hs
    refine Or.inr (Or.inl ⟨_, _, _, m, rfl, (peer_eq_some.mp hm).1, ?_⟩)
    cases online
    all_goals
      unfold checkVerdict handleStatus withMembers
      simp [Py.after_inside]
  | expire target =>
    obtain ⟨-, m, hm, rfl⟩ := step_expire hs
    refine Or.inr (Or.inl ⟨_, _, _, m, rfl, hm, ?_⟩)
    unfold suspectWait withMembers
    cases w.members.update m (some .offline) none env <;> rfl
  | disseminate target =>
    obtain ⟨m, -, rfl⟩ := Option.map_eq_some_iff.mp hs
    exact Or.inr (Or.inr ⟨rfl, by rintro p ⟨⟩, disseminate_members m⟩)
  | update name newStatus newMetadata =>
    obtain ⟨m, hm, rfl⟩ := Option.map_eq_some_iff.mp hs
    refine Or.inr (Or.inl ⟨_, _, _, m, rfl, hm, ?_⟩)
    rw [withMembers, Py.after_inside]

theorem step_sendQueue {action : Action} (h : w.members.Keyed)
    (hs : w.step action env = some w') (ha : ∀ packet, action ≠ .receive packet) :
    w'.sendQueue = w.sendQueue ++ w.outgoing action ∧ w'.listening = w.listening := by
  cases action with
  | receive packet => exact absurd rfl (ha packet)
  | ping target =>
    obtain ⟨m, hm, rfl⟩ := Option.map_eq_some_iff.mp hs
    rw [h.name _ _ (peer_eq_some.mp hm).1]
    exact ⟨rfl, rfl⟩
  | pingReq target indirects =>
    obtain ⟨m, hm, rfl⟩ := Option.map_eq_some_iff.mp hs
    rw [h.name _ _ (peer_eq_some.mp hm).1, checkPingReq, sendAll_eq]
    exact ⟨rfl, rfl⟩
  | verdict target online =>
    obtain ⟨m, -, rfl⟩ := Option.map_eq_some_iff.mp hs
    cases online
    all_goals
      unfold checkVerdict handleStatus withMembers
      simp [Py.after_inside, outgoing]
  | expire target =>
    obtain ⟨-, m, -, rfl⟩ := step_expire hs
    unfold suspectWait withMembers
    rw [outgoing, List.append_nil]
    cases w.members.update m (some .offline) none env <;> exact ⟨rfl, rfl⟩
  | disseminate target =>
    obtain ⟨m, hm, rfl⟩ := Option.map_eq_some_iff.mp hs
    rw [disseminate_eq, outgoing, hm]
    exact ⟨rfl, rfl⟩
  | update name newStatus newMetadata =>
    obtain ⟨m, -, rfl⟩ := Option.map_eq_some_iff.mp hs
    rw [withMembers, Py.after_inside]
    simp [outgoing]

theorem reply_congr (h : w'.localMember.source = w.localMember.source) :
    w'.reply packet = w.reply packet := by
  cases packet <;> simp only [reply, gossipReply, h]

theorem receive_sendQueue (h : w.members.Wf) (hp : packet.Honest) :
    (w.receive packet env).sendQueue = w.sendQueue ++ w.relayed packet env ++ w.reply packet := by
  have hsource := @Members.Wf.handled_localSource w.members packet env h hp
  rw [receive_eq h.toKeyed, List.append_assoc]
  refine congrArg (w.sendQueue ++ ·) (congrArg (w.relayed packet env ++ ·) ?_)
  cases hM : w.members.handled packet env with
  | ok M' =>
    rw [hM, Py.after_ok] at hsource
    exact @reply_congr w { w with members := M' } packet hsource
  | error r =>
    -- only an acknowledgement raises, and it is not answered
    have hchatter : packet.chatter ≠ true := by
      intro hc
      obtain ⟨M', hM', -⟩ := @Members.Wf.handled_chatter w.members packet env h hc
      cases hM.symm.trans hM'
    cases packet with
    | ping | pingReq | ack => exact absurd rfl hchatter
    | gossip g =>
      obtain ⟨_, _, _, M', hM', -⟩ := @Members.Wf.handled_gossip w.members env h g hp
      cases hM.symm.trans hM'
    | gossipAck a => rfl

theorem step_wf {action : Action} (h : w.members.Wf) (ha : action.Honest)
    (hs : w.step action env = some w') : w'.members.Wf ∧ w.members.Grows w'.members := by
  obtain ⟨packet, rfl, -, rfl⟩ | ⟨name, status, metadata, m, M', -, hr, hm, -, -, hM', rfl⟩ |
    ⟨-, -, rfl⟩ := step_cases h ha hs
  · rw [receive_members h.toKeyed]; exact h.handled ha
  · obtain ⟨M'', hM'', hwf, hg, -⟩ := @update_ok w env h name m hm status metadata hr
    cases hM'.symm.trans hM''
    exact ⟨hwf, hg⟩
  · exact ⟨h, .refl _⟩

theorem step_disseminate {target : Name} (hs : w.step (.disseminate target) env = some w') :
    w'.members = w.members := by
  obtain ⟨m, -, rfl⟩ := Option.map_eq_some_iff.mp hs
  exact disseminate_members m

theorem init_wf (config : Config) : (init config env).members.Wf := by
  obtain ⟨M, hM, hwf, -⟩ := Members.init_ok config env
  rw [init, hM]; exact hwf

theorem init_localName (config : Config) :
    (init config env).members.localName = config.localName := by
  obtain ⟨M, hM, -, hln, -⟩ := Members.init_ok config env
  rw [init, hM]; exact hln

theorem init_localMember (config : Config) :
    (init config env).localMember = Members.localInit config env := by
  obtain ⟨M, hM, -, hln, -, hm, -⟩ := Members.init_ok config env
  rw [localMember, init, hM, Py.after_ok, Members.localMember, hln, hm]; rfl

end Worker

end Swim
