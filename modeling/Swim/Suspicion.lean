import Swim.WorkerEffect
import Swim.Transition.Run

/-!
# Swim.Suspicion

What suspect timers do to the statuses of a worker's table, over all its runs.

* `online_iff` — the local member stays online in exactly the runs in which no timer of the local
  member expires.
* `suspicion_expires_iff` — every suspect non-local member has a pending timer, which makes it
  offline, in exactly the runs whose steps all satisfy `KeepsTimers`.

Both follow `Transition.always_iff_along` from what one step does (`step_cases`).
-/

namespace Swim

open Transition

/-- `_save` considers the update gossip makes: it is newer, or from the member itself. -/
def Member.Considers (m : Member) (g : Gossip) : Prop := g.clock > m.clock ∨ g.source.name = m.name

namespace Worker

variable {w w' : Worker} {l : Action × Env} {env : Env}

/-! ## The local member -/

def LeavesStatus (w : Worker) (l : Action × Env) : Prop :=
  l.1.Honest ∧ ∀ status metadata, l.1 = .update w.members.localName status metadata → status = none

theorem handled_local_status {M : Members} {packet : Packet} (h : M.Wf) (hp : packet.Honest) :
    (M.handled packet env).after.localMember.status = M.localMember.status := by
  have hwrite : ∀ {M₁ M' : Members} {n : Name} {m m' : Member}, M.Looks M₁ →
      M₁.members n = some m → M'.members = Function.update M₁.members n (some m') →
      M'.localName = M₁.localName → (n = M₁.localName → m'.status = m.status) →
      M'.localMember.status = M.localMember.status := by
    intro M₁ M' n m m' hl hm hmem hln hst
    rw [← hl.localMember, Members.localMember, Members.localMember, hln, hmem]
    by_cases hn : M₁.localName = n
    · subst hn; rw [Function.update_self, hm]; exact hst rfl
    · rw [Function.update_of_ne hn]
  have hchatter : packet.chatter = true →
      (M.handled packet env).after.localMember.status = M.localMember.status := by
    intro hc
    obtain ⟨M', hM', -, hl⟩ := @Members.Wf.handled_chatter M packet env h hc
    rw [hM', Py.after_ok, hl.localMember]
  cases packet with
  | ping | pingReq | ack => exact hchatter rfl
  | gossip g =>
    obtain ⟨M₁, m, source, M', hM', hwf, hl, hm, -, -, -, hg, hmem, -⟩ := h.handled_gossip hp
    rw [hM', Py.after_ok]
    refine hwrite hl hm hmem hg.localName fun hn => ?_
    refine Member.applied_status_ignored ?_
    rw [(hwf.isLocal _ _ hm).mpr hn]; rfl
  | gossipAck a =>
    obtain ⟨M₁, source, -, hl, hs, -, hM'⟩ := h.handled_gossipAck a
    rw [hM']
    split
    · exact hwrite hl hs (Members.put_acked_members _) rfl fun _ => rfl
    · exact congrArg Member.status hl.localMember

/-- One step: from an online local member, exactly the expiry of its own timer ends that. -/
theorem online_step (h : w.members.Wf) (hon : w.members.localMember.status = .online)
    (hl : w.LeavesStatus l) (hs : w.next l = some w') :
    w'.members.localMember.status = .online ↔ l.1 ≠ .expire w.members.localName := by
  obtain ⟨action, env⟩ := l
  obtain ⟨packet, rfl, -, rfl⟩ | ⟨name, status, metadata, m, M', he, hr, hm, hv, -, hM', rfl⟩ |
    ⟨he, -, rfl⟩ := step_cases h hl.1 hs
  · have hkeep := @handled_local_status env w.members packet h hl.1
    rw [receive_members h.toKeyed, hkeep]
    exact ⟨fun _ => by rintro ⟨⟩, fun _ => hon⟩
  · obtain ⟨M'', hM'', -, hg, hmem⟩ := @update_ok w env h name m hm status metadata hr
    cases hM'.symm.trans hM''
    by_cases hn : name = w.members.localName
    · subst hn
      have hlocal : w.members.localMember = m :=
        Option.some.inj (h.localMember.symm.trans hm)
      have hstatus : M'.localMember.status = (m.applied none w.members.nextClock
          w.members.nextClock status metadata env.now).status := by
        rw [Members.localMember, hg.localName, hmem, Function.update_self]; rfl
      rw [hstatus]
      rw [hlocal] at hon
      cases action with
      | expire target =>
        cases he
        have hacc := Member.accepts_none (h.settled _ _ hm).below
        rw [Member.applied_status_some (by simp) hacc, hon]
        exact ⟨fun hbad => absurd hbad (by decide), fun hne => absurd rfl hne⟩
      | verdict target online =>
        cases he
        rw [(h.isLocal _ _ hm).mpr rfl] at hv
        exact absurd (hv _ _ rfl) (by decide)
      | update name newStatus newMetadata =>
        cases he
        rw [hl.2 _ _ rfl, Member.applied_status_none]
        exact ⟨fun _ => by rintro ⟨⟩, fun _ => hon⟩
      | receive | ping | pingReq | disseminate => cases he
    · have hkeep : M'.localMember = w.members.localMember := by
        rw [Members.localMember, Members.localMember, hg.localName, hmem,
          Function.update_of_ne (Ne.symm hn)]
      rw [hkeep]
      refine ⟨fun _ hexp => hn ?_, fun _ => hon⟩
      rw [show action = _ from hexp] at he
      cases he; rfl
  · refine ⟨fun _ hexp => ?_, fun _ => hon⟩
    rw [show action = _ from hexp] at he
    cases he

/-- **The local member is online** in exactly the runs in which its own timer never expires. -/
theorem online_iff (config : Config) (env : Env) (ls : List (Action × Env))
    (hls : Along next LeavesStatus (init config env) ls) :
    Always next (fun w => w.members.localMember.status = .online) (init config env) ls ↔
      Along next (fun w l => l.1 ≠ .expire w.members.localName) (init config env) ls := by
  refine @always_iff_along _ _ next _ (fun w => w.members.Wf) _ _ ?_ _ _ (init_wf config) ?_ hls
  · intro w l w' hwf hon hl hs
    exact ⟨online_step hwf hon hl hs, fun _ => (step_wf hwf hl.1 hs).1⟩
  · obtain ⟨M, hM, -, hln, -, hlocal, -⟩ := Members.init_ok config env
    show (init config env).members.localMember.status = .online
    rw [init, hM, Py.after_ok, Members.localMember, hln, hlocal]; rfl

def nodeA : Config := ⟨"a", ["b"], ∅, 1, by decide⟩

def still : Env := ⟨0, fun _ => []⟩

/-- Gossip from `b` that suspects the receiver `a`. -/
def suspectA : Packet := .gossip ⟨⟨"b", []⟩, "a", 5, .suspect, none⟩

theorem online_iff_gossiped :
    Always next (fun w => w.members.localMember.status = .online) (init nodeA still)
        [(.receive suspectA, still)] ↔
      Along next (fun w l => l.1 ≠ .expire w.members.localName) (init nodeA still)
        [(.receive suspectA, still)] :=
  online_iff nodeA still _ fun _ _ => ⟨⟨rfl, by rintro _ _ ⟨⟩⟩, trivial⟩

/-- The gossip starts a timer of the local member, and its expiry makes `a` suspect itself. -/
theorem not_always_online : ¬ ∀ (config : Config) (env : Env) (ls : List (Action × Env)),
    Along next LeavesStatus (init config env) ls →
      Always next (fun w => w.members.localMember.status = .online) (init config env) ls := by
  intro h
  have hrun : (run next (init nodeA still) [(.receive suspectA, still), (.expire "a", still)]).map
      (fun w => w.members.localMember.status) = some .suspect := by decide
  obtain ⟨w, hw, hst⟩ := Option.map_eq_some_iff.mp hrun
  have hls : Along next LeavesStatus (init nodeA still)
      [(.receive suspectA, still), (.expire "a", still)] :=
    fun _ _ => ⟨⟨rfl, by rintro _ _ ⟨⟩⟩, fun _ _ => ⟨⟨trivial, by rintro _ _ ⟨⟩⟩, trivial⟩⟩
  have hon := (h nodeA still _ hls).last hw
  rw [hst] at hon
  cases hon

/-! ## Suspect members -/

def Pending (w : Worker) : Prop :=
  ∀ n m, w.members.members n = some m → m.isLocal = false → m.status = .suspect → n ∈ w.suspect

/-- Every suspect non-local member has a pending timer, whose expiry makes it offline. -/
def SuspicionExpires (w : Worker) : Prop :=
  ∀ n m, w.members.members n = some m → m.isLocal = false → m.status = .suspect →
    n ∈ w.suspect ∧ ∀ env, ∃ w' m', w.next (.expire n, env) = some w' ∧
      w'.members.members n = some m' ∧ m'.status = .offline

def SetsMetadata (_w : Worker) (l : Action × Env) : Prop :=
  l.1.Honest ∧ ∀ name status metadata, l.1 = .update name status metadata → status = none

/-- What gossip does to the status of a non-local member goes together with what it does to the
timer. -/
def Fits (m : Member) (g : Gossip) : Prop :=
  (m.status = .suspect → g.status ≠ .suspect → m.Considers g) ∧
    (m.status = .online → g.status = .offline → ¬ m.Considers g)

/-- Gossip fits the member it is about, and no timer of an online member expires. -/
def KeepsTimers (w : Worker) (l : Action × Env) : Prop :=
  match l.1 with
  | .receive (.gossip g) => ∀ m, w.members.members g.name = some m → m.isLocal = false → Fits m g
  | .expire target =>
    ∀ m, w.members.members target = some m → m.isLocal = false → m.status ≠ .online
  | _ => True

/-- The timer of a suspect member is enough: it makes the member offline. -/
theorem expires_iff (h : w.members.Wf) : w.SuspicionExpires ↔ w.Pending := by
  refine ⟨fun hx n m hm hl hst => (hx n m hm hl hst).1, fun hx n m hm hl hst => ?_⟩
  have hn := hx n m hm hl hst
  refine ⟨hn, fun env => ?_⟩
  obtain ⟨M', hM', -, -, hmem⟩ := @update_ok w env h n m hm (some .offline) none
    (by rintro s ⟨⟩; rfl)
  refine ⟨(w.suspectWait m env).after, m.applied none w.members.nextClock w.members.nextClock
    (some .offline) none env.now, ?_, ?_, ?_⟩
  · rw [next, step, if_pos hn, hm]; rfl
  · show (w.suspectWait m env).after.members.members n = _
    simp only [suspectWait, withMembers, hM', Py.inside_ok, Py.andThen_ok, Py.after_ok, hmem,
      Function.update_self]
  · rw [Member.applied_status_some (by simp) (Member.accepts_none (h.settled _ _ hm).below), hst]
    rfl

theorem fits_cases (status s : Status) (considered : Bool) :
    ((if considered then status.toward s else status) = .suspect → s = .suspect) ↔
      (status = .suspect → s ≠ .suspect → considered = true) ∧
        (status = .online → s = .offline → ¬ considered = true) := by
  cases status <;> cases s <;> cases considered <;> decide

theorem gossip_status {m : Member} {g : Gossip} {source : Member} {nextClock : Int} {now : Time}
    (hl : m.isLocal = false) : (m.applied (some source) g.clock nextClock
      (some g.status) g.metadata now).status =
        if m.accepts (some source) g.clock then m.status.toward g.status else m.status := by
  split
  · rename_i ha
    exact Member.applied_status_some (by simp [hl]) ha _
  · rename_i ha
    rw [Member.applied_of_not_accepts (by simpa using ha)]

theorem accepts_iff {m : Member} {g : Gossip} {source : Member}
    (hsource : source.name = g.source.name) :
    m.accepts (some source) g.clock = true ↔ m.Considers g := by
  rw [Member.accepts, Bool.or_eq_true, decide_eq_true_eq, beq_iff_eq, Option.map_some, hsource,
    Option.some_inj, Member.Considers]

section Timed

variable {members : Name → Option Member} {suspect suspect' : Finset Name} {name : Name}
  {x : Member}

def Timed (members : Name → Option Member) (suspect : Finset Name) : Prop :=
  ∀ n m, members n = some m → m.isLocal = false → m.status = .suspect → n ∈ suspect

theorem Timed.update_iff (h : Timed members suspect)
    (hkeep : ∀ n, n ≠ name → n ∈ suspect → n ∈ suspect') :
    Timed (Function.update members name (some x)) suspect' ↔
      (x.isLocal = false → x.status = .suspect → name ∈ suspect') := by
  constructor
  · exact fun h' => h' name x (Function.update_self ..)
  · intro hx n m hm hloc hst
    by_cases hn : n = name
    · subst hn
      rw [Function.update_self] at hm
      cases hm
      exact hx hloc hst
    · rw [Function.update_of_ne hn] at hm
      exact hkeep n hn (h n m hm hloc hst)

theorem Timed.looks {M M₁ : Members} (h : Timed M.members suspect) (hl : M.Looks M₁) :
    Timed M₁.members suspect := by
  intro n m' hm' hloc hst
  obtain ⟨m, hm, hs⟩ | ⟨-, e, hs⟩ := hl.origin _ _ hm'
  · exact h n m hm (hs.isLocal.symm.trans hloc) (hs.status.symm.trans hst)
  · rw [hs.status] at hst; cases hst

theorem mem_timers_of_ne {p : Prop} [Decidable p] {n : Name} (hn : n ≠ name) (h : n ∈ suspect) :
    n ∈ if p then insert name suspect else suspect.erase name := by
  split
  · exact Finset.mem_insert_of_mem h
  · exact Finset.mem_erase_of_ne_of_mem hn h

theorem mem_timers_self {p : Prop} [Decidable p] :
    (name ∈ if p then insert name suspect else suspect.erase name) ↔ p := by
  split
  · rename_i hp; exact iff_of_true (Finset.mem_insert_self _ _) hp
  · rename_i hp; exact iff_of_false (Finset.notMem_erase _ _) hp

end Timed

theorem pending_gossip (h : w.members.Wf) (hp : w.Pending) {g : Gossip} (hr : g.status.real) :
    (w.receive (.gossip g) env).Pending ↔
      ∀ m, w.members.members g.name = some m → m.isLocal = false → Fits m g := by
  obtain ⟨M₁, m₁, source, M', hM', hwf, hl, hm₁, hname, hsource, -, -, hmem, -⟩ :=
    @Members.Wf.handled_gossip w.members env h g hr
  have hfits : ∀ m, w.members.members g.name = some m → m.isLocal = false →
      (((m₁.applied (some source) g.clock w.members.nextClock (some g.status) g.metadata
        env.now).status = .suspect → g.status = .suspect) ↔ Fits m g) := by
    intro m hm hloc
    obtain ⟨m', hm', hs⟩ := hl.entry _ _ hm
    cases hm'.symm.trans hm₁
    have hacc : m₁.accepts (some source) g.clock = true ↔ m.Considers g := by
      rw [accepts_iff hsource, Member.Considers, Member.Considers, hs.clock, hname,
        h.name _ _ hm]
    rw [gossip_status (hs.isLocal.trans hloc), hs.status,
      fits_cases, hacc, Fits]
  show Timed (w.receive (.gossip g) env).members.members (w.receive (.gossip g) env).suspect ↔ _
  rw [receive_members h.toKeyed, hM', Py.after_ok, receive_suspect h.toKeyed, hmem, timersAfter,
    (Timed.looks hp hl).update_iff fun n hn hin => mem_timers_of_ne hn hin, mem_timers_self,
    Member.applied_isLocal]
  constructor
  · intro hst m hm hloc
    obtain ⟨m', hm', hs⟩ := hl.entry _ _ hm
    cases hm'.symm.trans hm₁
    exact (hfits m hm hloc).mp (hst (hs.isLocal.trans hloc))
  · intro hfit hloc hst
    obtain ⟨m, hm, hs⟩ | ⟨-, e, hs⟩ := hl.origin _ _ hm₁
    · have hloc' := hs.isLocal.symm.trans hloc
      exact (hfits m hm hloc').mpr (hfit m hm hloc') hst
    · -- a new member is offline, and only the gossip can make it suspect
      have hoff : m₁.status = .offline := hs.status
      rw [gossip_status hloc, hoff] at hst
      cases hgs : g.status <;> rw [hgs] at hst <;> split at hst <;> cases hst

theorem pending_receive {packet : Packet} (h : w.members.Wf) (hp : w.Pending)
    (hg : ∀ g, packet ≠ .gossip g) : (w.receive packet env).Pending := by
  have htimers : (w.receive packet env).suspect = w.suspect := by
    rw [receive_suspect h.toKeyed]
    cases packet with
    | gossip g => exact absurd rfl (hg g)
    | ping | pingReq | ack | gossipAck => rfl
  show Timed (w.receive packet env).members.members (w.receive packet env).suspect
  rw [receive_members h.toKeyed, htimers]
  have hchatter : packet.chatter = true →
      Timed (w.members.handled packet env).after.members w.suspect := by
    intro hc
    obtain ⟨M', hM', -, hl⟩ := @Members.Wf.handled_chatter w.members packet env h hc
    rw [hM', Py.after_ok]
    exact Timed.looks hp hl
  cases packet with
  | ping | pingReq | ack => exact hchatter rfl
  | gossip g => exact absurd rfl (hg g)
  | gossipAck a =>
    obtain ⟨M₁, source, -, hl, hs, -, hM'⟩ := @Members.Wf.handled_gossipAck w.members env h a
    have hT := Timed.looks hp hl
    rw [hM']
    split
    · rw [Py.after_ok, Members.put_acked_members]
      exact (hT.update_iff fun n _ hin => hin).mpr fun hloc hst => hT _ source hs hloc hst
    · exact hT

/-- One step: from a state with all timers pending, exactly the steps satisfying `KeepsTimers`
lead to such a state. -/
theorem pending_step (h : w.members.Wf) (hp : w.Pending) (hl : w.SetsMetadata l)
    (hs : w.next l = some w') : w'.Pending ↔ w.KeepsTimers l := by
  obtain ⟨action, env⟩ := l
  obtain ⟨packet, rfl, -, rfl⟩ | ⟨name, status, metadata, m, M', he, hr, hm, hv, hx, hM', rfl⟩ |
    ⟨he, hne, rfl⟩ := step_cases h hl.1 hs
  · cases packet with
    | gossip g => exact pending_gossip h hp hl.1
    | ping | pingReq | ack | gossipAck =>
      exact iff_of_true (pending_receive h hp (by rintro g ⟨⟩)) trivial
  · obtain ⟨M'', hM'', -, -, hmem⟩ := @update_ok w env h name m hm status metadata hr
    cases hM'.symm.trans hM''
    have hacc := Member.accepts_none (h.settled _ _ hm).below
    have hwrite : ∀ suspect', (∀ n, n ≠ name → n ∈ w.suspect → n ∈ suspect') →
        (Timed M'.members suspect' ↔ (m.isLocal = false → (m.applied none w.members.nextClock
          w.members.nextClock status metadata env.now).status = .suspect → name ∈ suspect')) := by
      intro suspect' hkeep
      rw [hmem, Timed.update_iff hp hkeep, Member.applied_isLocal]
    cases action with
    | receive | ping | pingReq | disseminate => cases he
    | verdict target online =>
      cases he
      refine iff_of_true ?_ trivial
      cases online with
      | false =>
        exact (hwrite _ fun n _ => Finset.mem_insert_of_mem).mpr fun _ _ =>
          Finset.mem_insert_self _ _
      | true =>
        refine (hwrite _ fun n => Finset.mem_erase_of_ne_of_mem).mpr fun _ hst => ?_
        rw [Member.applied_status_some (by simp) hacc] at hst
        cases hms : m.status <;> rw [hms] at hst <;> cases hst
    | expire target =>
      cases he
      refine (hwrite _ fun n => Finset.mem_erase_of_ne_of_mem).trans ?_
      rw [Member.applied_status_some (by simp) hacc]
      constructor
      · intro hst x hmx hloc hon
        cases hm.symm.trans hmx
        exact absurd (hst hloc (by rw [hon]; rfl)) (Finset.notMem_erase _ _)
      · intro hoff hloc hst
        have hnot := hoff m hm hloc
        cases hms : m.status <;> rw [hms] at hst hnot <;>
          first | exact absurd rfl hnot | cases hst
    | update name newStatus newMetadata =>
      cases he
      refine iff_of_true ((hwrite _ fun n _ hin => hin).mpr fun hloc hst => ?_) trivial
      rw [hl.2 _ _ _ rfl, Member.applied_status_none] at hst
      exact hp name m hm hloc hst
  · refine iff_of_true hp ?_
    cases action with
    | receive packet => exact absurd rfl (hne packet)
    | ping | pingReq | disseminate => trivial
    | verdict | expire | update => cases he

/-- **Every suspicion expires** in exactly the runs whose steps all satisfy `KeepsTimers`. -/
theorem suspicion_expires_iff (config : Config) (env : Env) (ls : List (Action × Env))
    (hls : Along next SetsMetadata (init config env) ls) :
    Always next SuspicionExpires (init config env) ls ↔
      Along next KeepsTimers (init config env) ls := by
  refine @always_iff_along _ _ next _ (fun w => w.members.Wf) _ _ ?_ _ _ (init_wf config) ?_ hls
  · intro w l w' hwf hexp hl hs
    have hwf' := (step_wf hwf hl.1 hs).1
    rw [expires_iff hwf']
    exact ⟨pending_step hwf ((expires_iff hwf).mp hexp) hl hs, fun _ => hwf'⟩
  · rw [expires_iff (init_wf config)]
    obtain ⟨M, hM, -, -, -, hlocal, hnew, -⟩ := Members.init_ok config env
    intro n m hm hloc hst
    rw [init, hM, Py.after_ok] at hm
    by_cases hn : n = config.localName
    · subst hn
      cases hm.symm.trans hlocal
      cases hloc
    · rw [hnew n m hn hm] at hst; cases hst

/-- `b` answered once and then stopped answering. -/
def suspectB : List (Action × Env) := [(.verdict "b" true, still), (.verdict "b" false, still)]

theorem suspicion_expires_iff_suspectB :
    Always next SuspicionExpires (init nodeA still) suspectB ↔
      Along next KeepsTimers (init nodeA still) suspectB :=
  suspicion_expires_iff nodeA still _ fun _ _ =>
    ⟨⟨trivial, by rintro _ _ _ ⟨⟩⟩, fun _ _ => ⟨⟨trivial, by rintro _ _ _ ⟨⟩⟩, trivial⟩⟩

/-- Stale gossip, about the time when `b` was online. -/
def staleB : Packet := .gossip ⟨⟨"c", []⟩, "b", 1, .online, some ∅⟩

/-- The stale gossip is not accepted, but it cancels the timer of the suspect member. -/
theorem not_always_suspicion_expires :
    ¬ ∀ (config : Config) (env : Env) (ls : List (Action × Env)),
      Along next SetsMetadata (init config env) ls →
        Always next SuspicionExpires (init config env) ls := by
  intro h
  have hrun : (run next (init nodeA still) (suspectB ++ [(.receive staleB, still)])).map
      (fun w => ((w.members.members "b").map fun m => (m.isLocal, m.status), w.suspect)) =
        some (some (false, .suspect), ∅) := by decide
  obtain ⟨w, hw, hst⟩ := Option.map_eq_some_iff.mp hrun
  have hls : Along next SetsMetadata (init nodeA still) (suspectB ++ [(.receive staleB, still)]) :=
    fun _ _ => ⟨⟨trivial, by rintro _ _ _ ⟨⟩⟩, fun _ _ => ⟨⟨trivial, by rintro _ _ _ ⟨⟩⟩,
      fun _ _ => ⟨⟨rfl, by rintro _ _ _ ⟨⟩⟩, trivial⟩⟩⟩
  have hexp := (h nodeA still _ hls).last hw
  obtain ⟨hb, hsus⟩ := Prod.mk.inj hst
  obtain ⟨m, hm, hpair⟩ := Option.map_eq_some_iff.mp hb
  obtain ⟨hloc, hstat⟩ := Prod.mk.inj hpair
  have hin := (hexp "b" m hm hloc hstat).1
  rw [hsus] at hin
  exact absurd hin (Finset.notMem_empty _)

end Worker

end Swim
