import Swim.Suspicion
import Swim.Transition.Run

/-!
# Swim.Check

`Worker.check` as a coroutine: the event loop runs any of its turns, one at a time, between those
of the handler, of other checks, of timers and of the application.

* `Phase` — where a check is suspended: in its first `_wait`, in the `asyncio.wait` for the tasks
  that send its `PingReq` packets, in its second `_wait`, or ended.
* `Loop.next` — one turn. A `_wait` ends at any time (it timed out) or after its event was set; in
  both cases it returns whether the event is set by then.
* `done_iff` — the verdict is online exactly if a packet of the target was handled during one
  of the two waits.
* `evidence_iff` — so evidence of life is missed exactly when it comes only between them.

An event that no `_wait` holds any more stays in `waiting`; nothing looks at it again.
-/

namespace Swim

open Transition
open Worker (nodeA still)

abbrev CheckId := Nat

inductive Phase where
  | ping (event : EventId)
  | sending (indirects : Finset Name)
  | pingReq (event : EventId)
  | done (online : Bool)
  | raised
  deriving DecidableEq

structure Check where
  target : Name
  phase : Phase
  deriving DecidableEq

structure Loop where
  worker : Worker
  nextEvent : EventId
  checks : CheckId → Option Check

/-- `check` calls `check` and runs it to its first wait, `wake` resumes a check, `send` runs one of
the tasks it created, and `other` is an action of the worker that is no part of a check. -/
inductive Turn where
  | check (id : CheckId) (target : Name)
  | wake (id : CheckId) (draws : List Nat)
  | send (id : CheckId) (indirect : Name)
  | other (action : Worker.Action)

namespace Loop

def put (L : Loop) (id : CheckId) (check : Check) : Loop :=
  { L with checks := Function.update L.checks id (some check) }

@[simp] theorem put_checks_self (L : Loop) (id : CheckId) (check : Check) :
    (L.put id check).checks id = some check := Function.update_self _ _ _

theorem put_checks_of_ne (L : Loop) {id k : CheckId} (check : Check) (h : k ≠ id) :
    (L.put id check).checks k = L.checks k := Function.update_of_ne h _ _

/-- `_wait` up to its suspension: a new event is registered. -/
def wait (L : Loop) (target : Name) : Loop × EventId :=
  let event := L.nextEvent
  let worker := { L.worker with events := Function.update L.worker.events event false }
  ({ L with worker := worker.addWaiting target event, nextEvent := event + 1 }, event)

def check (L : Loop) (id : CheckId) (target : Member) : Loop :=
  let (L, event) := { L with worker := L.worker.checkPing target.name }.wait target.name
  L.put id ⟨target.name, .ping event⟩

/-- The end of `check`, from `new_status = ...`. -/
def verdict (L : Loop) (id : CheckId) (target : Member) (online : Bool) (env : Env) : Loop :=
  { L with worker := (L.worker.checkVerdict target online env).after }.put id
    ⟨target.name, .done online⟩

/-- After a first `_wait` that returned false. -/
def indirect (L : Loop) (id : CheckId) (target : Member) (draws : List Nat) (env : Env) :
    Option Loop :=
  match L.worker.members.find L.worker.config.pingReqCount .available {target.name} draws with
  | none => none
  | some (.error _) => some (L.put id ⟨target.name, .raised⟩)
  | some (.ok indirects) =>
    if indirects = ∅ then some (L.verdict id target false env)
    else some (L.put id ⟨target.name, .sending indirects⟩)

def wake (L : Loop) (id : CheckId) (check : Check) (target : Member) (draws : List Nat)
    (env : Env) : Option Loop :=
  match check.phase with
  | .ping event =>
    if L.worker.events event then some (L.verdict id target true env)
    else L.indirect id target draws env
  | .sending indirects =>
    if indirects = ∅ then
      let (L, event) := L.wait target.name
      some (L.put id ⟨target.name, .pingReq event⟩)
    else none
  | .pingReq event => some (L.verdict id target (L.worker.events event) env)
  | .done _ | .raised => none

def send (L : Loop) (id : CheckId) (check : Check) (indirect : Name) : Option Loop :=
  match check.phase with
  | .sending indirects =>
    if indirect ∈ indirects then
      some ({ L with worker := L.worker.checkPingReq check.target [indirect] }.put id
        ⟨check.target, .sending (indirects.erase indirect)⟩)
    else none
  | _ => none

def outside : Worker.Action → Bool
  | .receive _ | .expire _ | .disseminate _ | .update _ _ _ => true
  | .ping _ | .pingReq _ _ | .verdict _ _ => false

def next (L : Loop) (l : Turn × Env) : Option Loop :=
  match l.1 with
  | .check id target =>
    if L.checks id = none then (L.worker.peer target).map fun target => L.check id target else none
  | .wake id draws =>
    (L.checks id).bind fun check =>
      (L.worker.members.members check.target).bind fun target => L.wake id check target draws l.2
  | .send id indirect => (L.checks id).bind fun check => L.send id check indirect
  | .other action =>
    if outside action then (L.worker.step action l.2).map fun worker => { L with worker } else none

def start (config : Config) (env : Env) : Loop := ⟨.init config env, 0, fun _ => none⟩

end Loop

namespace Worker

variable {w w' : Worker} {packet : Packet} {env : Env}

structure Calm (w w' : Worker) : Prop where
  events : w'.events = w.events
  waiting : w'.waiting = w.waiting
  keyed : w.members.Keyed → w'.members.Keyed

theorem Calm.refl (w : Worker) : w.Calm w := ⟨rfl, rfl, id⟩

theorem calm_update {name : Name} {m : Member} (hm : w.members.members name = some m)
    (status : Option Status) (metadata : Option Metadata) (suspect : Finset Name) :
    w.Calm { w with members := (w.members.update m status metadata env).after, suspect } := by
  refine ⟨rfl, rfl, fun h => h._update ?_⟩
  rw [h.name _ _ hm]; exact hm

theorem calm_checkVerdict {name : Name} {m : Member} (hm : w.members.members name = some m)
    (online : Bool) : w.Calm (w.checkVerdict m online env).after := by
  simp only [checkVerdict, withMembers, handleStatus_eq, Py.after_inside]
  exact calm_update hm _ _ _

theorem calm_suspectWait {name : Name} {m : Member} (hm : w.members.members name = some m) :
    w.Calm (w.suspectWait m env).after := by
  have hcalm := @calm_update w env name m hm (some .offline) none
  unfold suspectWait withMembers
  cases hu : w.members.update m (some .offline) none env with
  | ok M' =>
    have hM := hcalm (w.suspect.erase m.name)
    rw [hu] at hM
    exact hM
  | error r =>
    have hM := hcalm w.suspect
    rw [hu] at hM
    exact hM

theorem calm_step {action : Action} (ho : Loop.outside action = true)
    (hr : ∀ packet, action ≠ .receive packet) (hs : w.step action env = some w') : w.Calm w' := by
  cases action with
  | receive packet => exact absurd rfl (hr packet)
  | ping | pingReq | verdict => cases ho
  | expire target =>
    obtain ⟨-, m, hm, rfl⟩ := step_expire hs
    exact calm_suspectWait hm
  | disseminate target =>
    obtain ⟨m, -, rfl⟩ := Option.map_eq_some_iff.mp hs
    rw [disseminate_eq]; exact ⟨rfl, rfl, id⟩
  | update name status metadata =>
    obtain ⟨m, hm, rfl⟩ := Option.map_eq_some_iff.mp hs
    rw [withMembers, Py.after_inside]
    exact calm_update hm _ _ _

end Worker

/-! ## What a check hears -/

def Phase.event : Phase → Option EventId
  | ping event | pingReq event => some event
  | sending _ | done _ | raised => none

def Phase.waiting (phase : Phase) : Bool := phase.event.isSome

def Phase.between : Phase → Bool
  | sending _ => true
  | ping _ | pingReq _ | done _ | raised => false

/-- After its `Ping` was queued and before its verdict. -/
def Phase.open (phase : Phase) : Bool := phase.waiting || phase.between

namespace Loop

/-- The turn handles a packet of the check's target, while the check is in one of the phases. -/
def Heard (phases : Phase → Bool) (id : CheckId) (L : Loop) (l : Turn × Env) : Prop :=
  ∃ check packet, L.checks id = some check ∧ phases check.phase = true ∧
    l.1 = .other (.receive packet) ∧ packet.source.name = check.target

/-- What the state knows about a check whose target was, or was not, heard while it waited. -/
def Tracked (w : Worker) (check : Check) (heard : Prop) : Prop :=
  match check.phase with
  | .ping event | .pingReq event =>
    (∀ n, event ∈ w.waiting n ↔ n = check.target) ∧ (w.events event = true ↔ heard)
  | .sending _ | .raised => ¬ heard
  | .done online => online = true ↔ heard

/-- The invariant of a run in which exactly the targets of the checks in `heard` were heard while
their check waited. -/
structure Tracks (heard : CheckId → Prop) (L : Loop) : Prop where
  keyed : L.worker.members.Keyed
  fresh : ∀ n event, event ∈ L.worker.waiting n → event < L.nextEvent
  idle : ∀ id, L.checks id = none → ¬ heard id
  tracked : ∀ id check, L.checks id = some check → Tracked L.worker check (heard id)

/-- The events a turn leaves alone: all that were registered before. -/
structure Frame (L L' : Loop) : Prop where
  events : ∀ event, event < L.nextEvent → L'.worker.events event = L.worker.events event
  waiting : ∀ event, event < L.nextEvent →
    ∀ n, event ∈ L'.worker.waiting n ↔ event ∈ L.worker.waiting n
  fresh : ∀ n event, event ∈ L'.worker.waiting n → event < L'.nextEvent
  keyed : L'.worker.members.Keyed

section Turn

variable {L L' : Loop} {l : Turn × Env} {id : CheckId} {check : Check} {heard : CheckId → Prop}

theorem Tracked.frame {p : Prop} (h : Tracked L.worker check p) (hf : L.Frame L')
    (hfresh : ∀ n event, event ∈ L.worker.waiting n → event < L.nextEvent) :
    Tracked L'.worker check p := by
  obtain ⟨target, phase⟩ := check
  have hwait : ∀ event, (∀ n, event ∈ L.worker.waiting n ↔ n = target) →
      (L.worker.events event = true ↔ p) →
      (∀ n, event ∈ L'.worker.waiting n ↔ n = target) ∧
        (L'.worker.events event = true ↔ p) := by
    intro event hw he
    have hlt := hfresh target event ((hw target).mpr rfl)
    exact ⟨fun n => (hf.waiting event hlt n).trans (hw n), by rw [hf.events event hlt]; exact he⟩
  cases phase with
  | ping event => exact hwait event h.1 h.2
  | pingReq event => exact hwait event h.1 h.2
  | sending | done | raised => exact h

theorem Tracks.frame_calm (h : Tracks heard L) {w : Worker} (hc : L.worker.Calm w) :
    L.Frame { L with worker := w } where
  events := fun _ _ => by rw [← hc.events]
  waiting := fun _ _ _ => by rw [← hc.waiting]
  fresh := fun n event hn => h.fresh n event (by rw [← hc.waiting]; exact hn)
  keyed := hc.keyed h.keyed

theorem Frame.wait (hf : L.Frame L') (hle : L'.nextEvent = L.nextEvent) (target : Name) :
    L.Frame (L'.wait target).1 ∧
      (∀ n, (L'.wait target).2 ∈ (L'.wait target).1.worker.waiting n ↔ n = target) ∧
      (L'.wait target).1.worker.events (L'.wait target).2 = false := by
  have hnew : ∀ n, L'.nextEvent ∉ L'.worker.waiting n := by
    intro n hn
    exact absurd (hf.fresh n _ hn) (lt_irrefl _)
  have hwait : ∀ n event, event ∈ (L'.wait target).1.worker.waiting n ↔
      event ∈ L'.worker.waiting n ∨ event = L'.nextEvent ∧ n = target := by
    intro n event
    by_cases hn : n = target
    · subst hn
      simp only [Loop.wait, Worker.addWaiting, Function.update_self, Finset.mem_insert, and_true]
      exact or_comm
    · simp [Loop.wait, Worker.addWaiting, hn]
  refine ⟨⟨?_, ?_, ?_, hf.keyed⟩, ?_, Function.update_self _ _ _⟩
  · intro event hlt
    have hne : event ≠ L'.nextEvent := hle.symm ▸ Nat.ne_of_lt hlt
    rw [← hf.events event hlt]
    exact Function.update_of_ne hne _ _
  · intro event hlt n
    have hne : event ≠ L'.nextEvent := hle.symm ▸ Nat.ne_of_lt hlt
    rw [hwait, ← hf.waiting event hlt n]
    simp [hne]
  · intro n event hn
    show event < L'.nextEvent + 1
    rcases (hwait n event).mp hn with hold | ⟨rfl, -⟩
    · exact Nat.lt_succ_of_lt (hf.fresh n event hold)
    · exact Nat.lt_succ_self _
  · intro n
    refine (hwait n _).trans ?_
    have hno := hnew n
    show L'.nextEvent ∈ _ ∨ L'.nextEvent = _ ∧ _ ↔ _
    tauto

theorem Tracks.put (h : Tracks heard L) (hf : L.Frame L') (hchecks : L'.checks = L.checks)
    (hc : Tracked L'.worker check (heard id)) : Tracks heard (L'.put id check) where
  keyed := hf.keyed
  fresh := hf.fresh
  idle := by
    intro k hk
    by_cases hki : k = id
    · subst hki
      rw [put_checks_self] at hk; cases hk
    · rw [put_checks_of_ne _ _ hki, hchecks] at hk
      exact h.idle k hk
  tracked := by
    intro k c hk
    by_cases hki : k = id
    · subst hki
      rw [put_checks_self] at hk
      cases hk
      exact hc
    · rw [put_checks_of_ne _ _ hki, hchecks] at hk
      show Tracked L'.worker c (heard k)
      exact (h.tracked k c hk).frame hf h.fresh

theorem Tracks.calm (h : Tracks heard L) {w : Worker} (hc : L.worker.Calm w) :
    Tracks heard { L with worker := w } where
  keyed := hc.keyed h.keyed
  fresh := (h.frame_calm hc).fresh
  idle := h.idle
  tracked := fun k c hk => (h.tracked k c hk).frame (h.frame_calm hc) h.fresh

theorem Tracks.verdict (h : Tracks heard L) {name : Name} {m : Member} {online : Bool} {env : Env}
    (hm : L.worker.members.members name = some m) (ho : online = true ↔ heard id) :
    Tracks heard (L.verdict id m online env) :=
  h.put (h.frame_calm (Worker.calm_checkVerdict hm online)) rfl ho

theorem Tracks.wait (h : Tracks heard L) {w : Worker} (hc : L.worker.Calm w) (target : Name)
    (hno : ¬ heard id) {phase : EventId → Phase}
    (hphase : phase = Phase.ping ∨ phase = Phase.pingReq) :
    Tracks heard ((({ L with worker := w } : Loop).wait target).1.put id
      ⟨target, phase (({ L with worker := w } : Loop).wait target).2⟩) := by
  obtain ⟨hf, hw, he⟩ := (h.frame_calm hc).wait rfl target
  have hiff : (({ L with worker := w } : Loop).wait target).1.worker.events
      (({ L with worker := w } : Loop).wait target).2 = true ↔ heard id := by
    rw [he]; exact iff_of_false Bool.false_ne_true hno
  rcases hphase with rfl | rfl
  · exact h.put hf rfl ⟨hw, hiff⟩
  · exact h.put hf rfl ⟨hw, hiff⟩

theorem Tracks.wake (h : Tracks heard L) (hcheck : L.checks id = some check) {m : Member}
    (hm : L.worker.members.members check.target = some m) {draws : List Nat} {env : Env}
    (hs : L.wake id check m draws env = some L') : Tracks heard L' := by
  have hname : m.name = check.target := h.keyed.name _ _ hm
  have ht := h.tracked id check hcheck
  obtain ⟨target, phase⟩ := check
  cases phase with
  | ping event =>
    rw [Loop.wake] at hs
    dsimp only at hs
    split at hs
    · rename_i he
      cases hs
      exact h.verdict hm (iff_of_true rfl (ht.2.mp he))
    · rename_i he
      have hno : ¬ heard id := fun hh => he (ht.2.mpr hh)
      rw [Loop.indirect] at hs
      split at hs
      · cases hs
      · cases hs
        exact h.put (h.frame_calm (.refl _)) rfl hno
      · split at hs
        · cases hs
          exact h.verdict hm (iff_of_false Bool.false_ne_true hno)
        · cases hs
          exact h.put (h.frame_calm (.refl _)) rfl hno
  | sending indirects =>
    rw [Loop.wake] at hs
    dsimp only at hs
    split at hs
    · cases hs
      exact h.wait (.refl _) m.name ht (Or.inr rfl)
    · cases hs
  | pingReq event =>
    cases hs
    exact h.verdict hm ht.2
  | done | raised => cases hs

theorem Tracks.send (h : Tracks heard L) (hcheck : L.checks id = some check) {indirect : Name}
    (hs : L.send id check indirect = some L') : Tracks heard L' := by
  have ht := h.tracked id check hcheck
  obtain ⟨target, phase⟩ := check
  cases phase with
  | sending indirects =>
    rw [Loop.send] at hs
    dsimp only at hs
    split at hs
    · cases hs
      refine h.put (h.frame_calm (w := L.worker.checkPingReq target [indirect]) ?_) rfl ht
      rw [Worker.checkPingReq, Worker.sendAll_eq]; exact ⟨rfl, rfl, fun hk => hk⟩
    · cases hs
  | ping | pingReq | done | raised => cases hs

theorem Tracks.receive (h : Tracks heard L) (packet : Packet) (env : Env) :
    Tracks (fun id => heard id ∨ Heard Phase.waiting id L (.other (.receive packet), env))
      { L with worker := L.worker.receive packet env } where
  keyed := by
    show (L.worker.receive packet env).members.Keyed
    rw [Worker.receive_members h.keyed]; exact h.keyed.handled
  fresh := by
    intro n event hn
    exact h.fresh n event (by rw [← @Worker.receive_waiting L.worker packet env h.keyed]; exact hn)
  idle := by
    rintro id hid (hh | ⟨check, _, hc, -⟩)
    · exact h.idle id hid hh
    · exact absurd (hid.symm.trans hc) (by rintro ⟨⟩)
  tracked := by
    intro id check hc
    have ht := h.tracked id check hc
    have hheard : Heard Phase.waiting id L (.other (.receive packet), env) ↔
        check.phase.waiting = true ∧ packet.source.name = check.target := by
      constructor
      · rintro ⟨c, p, hc', hw, hp, hsrc⟩
        cases hc.symm.trans hc'
        cases hp
        exact ⟨hw, hsrc⟩
      · rintro ⟨hw, hsrc⟩
        exact ⟨check, packet, hc, hw, rfl, hsrc⟩
    have hev := @Worker.receive_events L.worker packet env h.keyed
    obtain ⟨target, phase⟩ := check
    have hwait : ∀ event, (∀ n, event ∈ L.worker.waiting n ↔ n = target) →
        (L.worker.events event = true ↔ heard id) →
        (∀ n, event ∈ (L.worker.receive packet env).waiting n ↔ n = target) ∧
          ((L.worker.receive packet env).events event = true ↔
            heard id ∨ packet.source.name = target) := by
      intro event hw he
      refine ⟨fun n => by rw [Worker.receive_waiting h.keyed]; exact hw n, ?_⟩
      rw [hev]
      dsimp only
      split
      · rename_i hin
        exact iff_of_true rfl (Or.inr ((hw _).mp hin))
      · rename_i hin
        rw [he, or_iff_left fun hsrc => hin ((hw _).mpr hsrc)]
    simp only [hheard]
    cases phase with
    | ping event => simpa [Tracked, Phase.waiting, Phase.event] using hwait event ht.1 ht.2
    | pingReq event => simpa [Tracked, Phase.waiting, Phase.event] using hwait event ht.1 ht.2
    | sending | raised | done => simpa [Tracked, Phase.waiting, Phase.event] using ht

theorem Tracks.next (h : Tracks heard L) (hs : L.next l = some L') :
    Tracks (fun id => heard id ∨ Heard Phase.waiting id L l) L' := by
  obtain ⟨turn, env⟩ := l
  have hquiet : (∀ packet, turn ≠ .other (.receive packet)) → Tracks heard L' →
      Tracks (fun id => heard id ∨ Heard Phase.waiting id L (turn, env)) L' := by
    intro hne ht
    have hsame : (fun id => heard id ∨ Heard Phase.waiting id L (turn, env)) = heard := by
      funext id
      refine propext (or_iff_left ?_)
      rintro ⟨_, packet, -, -, hp, -⟩
      exact hne packet hp
    rw [hsame]; exact ht
  cases turn with
  | check id target =>
    refine hquiet (by rintro p ⟨⟩) ?_
    rw [Loop.next] at hs
    dsimp only at hs
    split at hs
    · rename_i hnone
      obtain ⟨m, hm, rfl⟩ := Option.map_eq_some_iff.mp hs
      exact h.wait (w := L.worker.checkPing m.name) ⟨rfl, rfl, fun hk => hk⟩ m.name
        (h.idle id hnone) (Or.inl rfl)
    · cases hs
  | wake id draws =>
    refine hquiet (by rintro p ⟨⟩) ?_
    obtain ⟨check, hc, hs⟩ := Option.bind_eq_some_iff.mp hs
    obtain ⟨m, hm, hs⟩ := Option.bind_eq_some_iff.mp hs
    exact h.wake hc hm hs
  | send id indirect =>
    refine hquiet (by rintro p ⟨⟩) ?_
    obtain ⟨check, hc, hs⟩ := Option.bind_eq_some_iff.mp hs
    exact h.send hc hs
  | other action =>
    rw [Loop.next] at hs
    dsimp only at hs
    split at hs
    · rename_i ho
      obtain ⟨w, hw, rfl⟩ := Option.map_eq_some_iff.mp hs
      by_cases hr : ∃ packet, action = .receive packet
      · obtain ⟨packet, rfl⟩ := hr
        rw [(Worker.step_receive hw).2]
        exact h.receive packet env
      · refine hquiet (by rintro p ⟨⟩; exact hr ⟨p, rfl⟩) ?_
        exact h.calm (Worker.calm_step ho (fun p hp => hr ⟨p, hp⟩) hw)
    · cases hs

end Turn

theorem tracks_start (config : Config) (env : Env) :
    Tracks (fun _ => False) (start config env) where
  keyed := (Worker.init_wf config).toKeyed
  fresh := fun _ _ hn => absurd hn (Finset.notMem_empty _)
  idle := fun _ _ => not_false
  tracked := by rintro id check ⟨⟩

theorem tracks_run {config : Config} {env : Env} {ls : List (Turn × Env)} {L : Loop}
    (h : run next (start config env) ls = some L) :
    Tracks (fun id => Sometime next (Heard Phase.waiting id) (start config env) ls) L := by
  refine @run_induction _ _ next _ (fun ls L =>
    Tracks (fun id => Sometime next (Heard Phase.waiting id) (start config env) ls) L)
    (tracks_start config env) (fun ls l L L' hrun ht hs => ?_) _ _ h
  have hsame : (fun id => Sometime next (Heard Phase.waiting id) (start config env) (ls ++ [l])) =
      fun id => Sometime next (Heard Phase.waiting id) (start config env) ls ∨
        Heard Phase.waiting id L l := by
    funext id
    refine propext ((sometime_concat hrun).trans (or_congr_right ?_))
    exact ⟨fun ⟨_, _, hh⟩ => hh, fun hh => ⟨L', hs, hh⟩⟩
  rw [hsame]
  exact ht.next hs

/-- The verdict is online exactly if the target was heard during one of the two waits. -/
theorem done_iff {config : Config} {env : Env} {ls : List (Turn × Env)} {L : Loop} {id : CheckId}
    {target : Name} {online : Bool} (h : run next (start config env) ls = some L)
    (hd : L.checks id = some ⟨target, .done online⟩) :
    online = true ↔ Sometime next (Heard Phase.waiting id) (start config env) ls :=
  (tracks_run h).tracked id _ hd

/-- **Evidence of life is missed** by a check exactly if its target is heard, but only between the
two waits. -/
theorem evidence_iff (config : Config) (env : Env) (ls : List (Turn × Env)) (id : CheckId)
    (target : Name) (online : Bool)
    (hdone : (run next (start config env) ls).bind (fun L => L.checks id) =
      some ⟨target, .done online⟩) :
    (Sometime next (Heard Phase.open id) (start config env) ls → online = true) ↔
      (Sometime next (Heard Phase.between id) (start config env) ls →
        Sometime next (Heard Phase.waiting id) (start config env) ls) := by
  obtain ⟨L, hrun, hd⟩ := Option.bind_eq_some_iff.mp hdone
  have hopen : Sometime next (Heard Phase.open id) (start config env) ls ↔
      Sometime next (Heard Phase.waiting id) (start config env) ls ∨
        Sometime next (Heard Phase.between id) (start config env) ls := by
    rw [← sometime_or]
    have hsplit : Heard Phase.open id =
        fun L l => Heard Phase.waiting id L l ∨ Heard Phase.between id L l := by
      funext L l
      refine propext ⟨?_, ?_⟩
      · rintro ⟨check, packet, hc, ho, hp⟩
        rcases (Bool.or_eq_true _ _).mp ho with hw | hb
        · exact Or.inl ⟨check, packet, hc, hw, hp⟩
        · exact Or.inr ⟨check, packet, hc, hb, hp⟩
      · rintro (⟨check, packet, hc, hw, hp⟩ | ⟨check, packet, hc, hb, hp⟩)
        · exact ⟨check, packet, hc, (Bool.or_eq_true _ _).mpr (Or.inl hw), hp⟩
        · exact ⟨check, packet, hc, (Bool.or_eq_true _ _).mpr (Or.inr hb), hp⟩
    rw [hsplit]
  rw [hopen, done_iff hrun hd]
  tauto

/-- `c` is online, a first check of `b` times out, and `c` is asked to ping it. -/
def asked : List (Turn × Env) :=
  [(.other (.receive (.gossip ⟨⟨"c", []⟩, "c", 1, .online, some ∅⟩)), still),
    (.check 0 "b", still), (.wake 0 [0], still)]

/-- `b` answers before the second wait is registered, and not again. -/
def answered : List (Turn × Env) :=
  asked ++ (.other (.receive (.ack ⟨"b", []⟩)), still) ::
    [(.send 0 "c", still), (.wake 0 [], still), (.wake 0 [], still)]

theorem evidence_iff_answered :
    (Sometime next (Heard Phase.open 0) (start nodeA still) answered → false = true) ↔
      (Sometime next (Heard Phase.between 0) (start nodeA still) answered →
        Sometime next (Heard Phase.waiting 0) (start nodeA still) answered) :=
  evidence_iff nodeA still answered 0 "b" false (by decide +kernel)

/-- The answer between the waits sets no event, and the verdict is suspect. -/
theorem evidence_missed : ¬ ∀ (config : Config) (env : Env) (ls : List (Turn × Env)) (id : CheckId)
    (target : Name) (online : Bool),
    (run next (start config env) ls).bind (fun L => L.checks id) = some ⟨target, .done online⟩ →
      Sometime next (Heard Phase.open id) (start config env) ls → online = true := by
  intro h
  have hasked : (run next (start nodeA still) asked).bind (fun L => L.checks 0) =
      some ⟨"b", .sending {"c"}⟩ := by decide +kernel
  have hdone : (run next (start nodeA still) answered).bind (fun L => L.checks 0) =
      some ⟨"b", .done false⟩ := by decide +kernel
  obtain ⟨L, hL, hc⟩ := Option.bind_eq_some_iff.mp hasked
  obtain ⟨L', hL', -⟩ := Option.bind_eq_some_iff.mp hdone
  have hheard : Heard Phase.open 0 L (.other (.receive (.ack ⟨"b", []⟩)), still) :=
    ⟨_, _, hc, rfl, rfl, rfl⟩
  have honline := h nodeA still answered 0 "b" false hdone (Sometime.middle hL hheard hL')
  exact absurd honline (by decide)

end Loop

end Swim
