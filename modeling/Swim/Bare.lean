import Swim.Refines

/-!
# Swim.Bare

No action reads the send queue: it only puts packets at its end. So an event loop whose queue is
emptied now and then goes through the same states.

* `Worker.bare`, `step_bare` — the worker without its queue makes the same steps.
* `Loop.bare`, `next_bare`   — and so does the event loop.
-/

namespace Swim

namespace Worker

variable {w w' : Worker} {action : Action} {env : Env}

/-- The worker once everything in its queue was taken. -/
def bare (w : Worker) : Worker := { w with sendQueue := [] }

def queueing (w : Worker) (queue : List (Name × Packet)) : Worker :=
  { w with sendQueue := queue ++ w.sendQueue }

theorem queueing_bare (w : Worker) : w.bare.queueing w.sendQueue = w := by
  rw [bare, queueing, List.append_nil]

theorem receive_queueing (h : w.members.Keyed) (queue : List (Name × Packet)) (packet : Packet) :
    (w.queueing queue).receive packet env = (w.receive packet env).queueing queue := by
  have h' : (w.queueing queue).members.Keyed := h
  rw [receive_eq h, receive_eq h']
  simp only [passed, queueing, List.append_assoc]
  rfl

theorem checkVerdict_queueing (queue : List (Name × Packet)) (target : Member) (online : Bool) :
    ((w.queueing queue).checkVerdict target online env).after =
      (w.checkVerdict target online env).after.queueing queue := by
  simp only [checkVerdict, handleStatus_eq, withMembers, Py.after_inside]
  rfl

theorem suspectWait_queueing (queue : List (Name × Packet)) (target : Member) :
    ((w.queueing queue).suspectWait target env).after =
      (w.suspectWait target env).after.queueing queue := by
  simp only [suspectWait, withMembers]
  have hupdate : (w.queueing queue).members.update target (some .offline) none env =
      w.members.update target (some .offline) none env := rfl
  rw [hupdate]
  cases w.members.update target (some .offline) none env <;> rfl

theorem step_queueing (h : w.members.Keyed) (queue : List (Name × Packet)) (action : Action)
    (env : Env) :
    (w.queueing queue).step action env = (w.step action env).map fun w => w.queueing queue := by
  have hpeer : ∀ name, (w.queueing queue).peer name = w.peer name := fun _ => rfl
  cases action with
  | receive packet =>
    by_cases hf : w.failed = none
    · rw [step, if_pos (show (w.queueing queue).failed = none from hf), step, if_pos hf,
        receive_queueing h]
      rfl
    · rw [step, if_neg (show ¬ (w.queueing queue).failed = none from hf), step, if_neg hf]
      rfl
  | ping target =>
    rw [step, step, hpeer, Option.map_map]
    refine congrArg (fun f => Option.map f (w.peer target)) (funext fun m => ?_)
    simp [checkPing, send, queueing, localMember]
  | pingReq target indirects =>
    rw [step, step, hpeer, Option.map_map]
    refine congrArg (fun f => Option.map f (w.peer target)) (funext fun m => ?_)
    simp [checkPingReq, sendAll_eq, queueing, localMember]
  | verdict target online =>
    rw [step, step, hpeer, Option.map_map]
    exact congrArg (fun f => Option.map f (w.peer target))
      (funext fun m => checkVerdict_queueing queue m online)
  | expire target =>
    by_cases ht : target ∈ w.suspect
    · rw [step, if_pos (show target ∈ (w.queueing queue).suspect from ht), step, if_pos ht,
        Option.map_map]
      exact congrArg (fun f => Option.map f (w.members.members target))
        (funext fun m => suspectWait_queueing queue m)
    · rw [step, if_neg (show ¬ target ∈ (w.queueing queue).suspect from ht), step, if_neg ht]
      rfl
  | disseminate target =>
    rw [step, step, hpeer, Option.map_map]
    refine congrArg (fun f => Option.map f (w.peer target)) (funext fun m => ?_)
    simp only [Function.comp, disseminate_eq, queueing, List.append_assoc]
    rfl
  | update name status metadata =>
    rw [step, step, Option.map_map]
    refine congrArg (fun f => Option.map f (w.members.members name)) (funext fun m => ?_)
    simp only [Function.comp, withMembers, Py.after_inside]
    rfl

end Worker

namespace Loop

variable {L L' : Loop} {l : Turn × Env}

def bare (L : Loop) : Loop := { L with worker := L.worker.bare }

def queueing (L : Loop) (queue : List (Name × Packet)) : Loop :=
  { L with worker := L.worker.queueing queue }

theorem queueing_bare (L : Loop) : L.bare.queueing L.worker.sendQueue = L := by
  rw [bare, queueing, Worker.queueing_bare]

theorem wake_queueing {id : CheckId} {check : Check} {m : Member} {draws : List Nat} {env : Env}
    (queue : List (Name × Packet)) : (L.queueing queue).wake id check m draws env =
      (L.wake id check m draws env).map fun L => L.queueing queue := by
  have hverdict : ∀ online, (L.queueing queue).verdict id m online env =
      (L.verdict id m online env).queueing queue := by
    intro online
    simp only [verdict, put, queueing, Worker.checkVerdict_queueing]
  obtain ⟨target, phase⟩ := check
  cases phase with
  | ping event =>
    have hindirect : (L.queueing queue).indirect id m draws env =
        (L.indirect id m draws env).map fun L => L.queueing queue := by
      simp only [indirect]
      have hfind : (L.queueing queue).worker.members.find
          (L.queueing queue).worker.config.pingReqCount .available {m.name} draws =
          L.worker.members.find L.worker.config.pingReqCount .available {m.name} draws := rfl
      rw [hfind]
      cases L.worker.members.find L.worker.config.pingReqCount .available {m.name} draws with
      | none => rfl
      | some r =>
        cases r with
        | error e => rfl
        | ok indirects =>
          dsimp only
          split
          · rw [hverdict]; rfl
          · rfl
    simp only [wake, hindirect, hverdict]
    show (if L.worker.events event = true then _ else _) = _
    split <;> rfl
  | sending indirects =>
    simp only [wake]
    split <;> rfl
  | pingReq event =>
    simp only [wake, hverdict]
    rfl
  | done | raised => rfl

theorem next_queueing (h : L.worker.members.Keyed) (queue : List (Name × Packet))
    (l : Turn × Env) :
    (L.queueing queue).next l = (L.next l).map fun L => L.queueing queue := by
  obtain ⟨turn, env⟩ := l
  cases turn with
  | check id target =>
    simp only [next]
    show (if L.checks id = none then _ else _) = _
    split
    · rw [Option.map_map]
      refine congrArg (fun f => Option.map f (L.worker.peer target)) (funext fun m => ?_)
      simp [check, wait, put, queueing, Worker.checkPing, Worker.send, Worker.queueing,
        Worker.addWaiting, Worker.localMember]
    · rfl
  | wake id draws =>
    simp only [next]
    show (L.checks id).bind _ = _
    cases L.checks id with
    | none => rfl
    | some check =>
      simp only [Option.bind_some]
      show (L.worker.members.members check.target).bind _ = _
      cases L.worker.members.members check.target with
      | none => rfl
      | some m => exact wake_queueing queue
  | send id indirect =>
    simp only [next]
    show (L.checks id).bind _ = _
    cases L.checks id with
    | none => rfl
    | some check =>
      obtain ⟨target, phase⟩ := check
      cases phase with
      | sending indirects =>
        simp only [Option.bind_some, send]
        split
        · simp [put, queueing, Worker.checkPingReq, Worker.sendAll_eq, Worker.queueing,
            Worker.localMember]
        · rfl
      | ping | pingReq | done | raised => rfl
  | other action =>
    simp only [next]
    split
    · show ((L.worker.queueing queue).step action env).map _ = _
      rw [Worker.step_queueing h, Option.map_map, Option.map_map]
      rfl
    · rfl

theorem next_bare (h : L.worker.members.Keyed) (hs : L.next l = some L') :
    ∃ L₁, L.bare.next l = some L₁ ∧ L' = L₁.queueing L.worker.sendQueue := by
  have hq := next_queueing (L := L.bare) h L.worker.sendQueue l
  rw [queueing_bare, hs] at hq
  obtain ⟨L₁, hL₁, heq⟩ := Option.map_eq_some_iff.mp hq.symm
  exact ⟨L₁, hL₁, heq.symm⟩

end Loop

end Swim
