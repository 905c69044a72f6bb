import Swim.Check

/-!
# Swim.Refines

The turns of the event loop are actions of the worker: what a check does between two suspension
points is one `Worker.Action`, or nothing but bookkeeping of its events. So what holds in every run
of `Worker.next` holds of the table, the timers and the queue of a worker whose checks are
suspended and resumed in any order.

* `forget`    — the worker without the events of its waits, which no action reads.
* `step_forget` — the actions do not depend on them.
* `Makes`, `next_makes` — a turn is an action or nothing, and which actions it can be.
* `run_refines` — a run of the event loop is a run of actions.
-/

namespace Swim

open Transition

namespace Worker

variable {w w' : Worker} {action : Action} {packet : Packet} {env : Env}

def forget (w : Worker) : Worker := { w with events := fun _ => false, waiting := fun _ => ∅ }

theorem receive_forget (h : w.members.Keyed) :
    w.forget.receive packet env = (w.receive packet env).forget := by
  rw [receive_eq h, @receive_eq w.forget packet env h]
  simp only [passed, forget, Finset.notMem_empty, if_false]
  rfl

theorem after_forget (r : Py Members) (f : Members → Worker) :
    (r.inside fun M => (f M).forget).after = (r.inside f).after.forget := by
  cases r <;> rfl

theorem checkVerdict_forget (target : Member) (online : Bool) :
    (w.forget.checkVerdict target online env).after =
      (w.checkVerdict target online env).after.forget := by
  simp only [checkVerdict, handleStatus_eq, withMembers, ← after_forget]
  rfl

theorem suspectWait_forget (target : Member) :
    (w.forget.suspectWait target env).after = (w.suspectWait target env).after.forget := by
  simp only [suspectWait, withMembers]
  have hupdate : w.forget.members.update target (some .offline) none env =
      w.members.update target (some .offline) none env := rfl
  rw [hupdate]
  cases w.members.update target (some .offline) none env <;> rfl

theorem step_forget (h : w.members.Keyed) (hs : w.step action env = some w') :
    w.forget.step action env = some w'.forget := by
  cases action with
  | receive packet =>
    obtain ⟨hf, rfl⟩ := step_receive hs
    rw [step, if_pos (show w.forget.failed = none from hf), receive_forget h]
  | ping target =>
    obtain ⟨m, hm, rfl⟩ := Option.map_eq_some_iff.mp hs
    exact Option.map_eq_some_iff.mpr ⟨m, hm, rfl⟩
  | pingReq target indirects =>
    obtain ⟨m, hm, rfl⟩ := Option.map_eq_some_iff.mp hs
    refine Option.map_eq_some_iff.mpr ⟨m, hm, ?_⟩
    rw [checkPingReq, checkPingReq, sendAll_eq, sendAll_eq]; rfl
  | verdict target online =>
    obtain ⟨m, hm, rfl⟩ := Option.map_eq_some_iff.mp hs
    exact Option.map_eq_some_iff.mpr ⟨m, hm, checkVerdict_forget m online⟩
  | expire target =>
    obtain ⟨ht, m, hm, rfl⟩ := step_expire hs
    rw [step, if_pos (show target ∈ w.forget.suspect from ht)]
    exact Option.map_eq_some_iff.mpr ⟨m, hm, suspectWait_forget m⟩
  | disseminate target =>
    obtain ⟨m, hm, rfl⟩ := Option.map_eq_some_iff.mp hs
    refine Option.map_eq_some_iff.mpr ⟨m, hm, ?_⟩
    rw [disseminate_eq, disseminate_eq]; rfl
  | update name status metadata =>
    obtain ⟨m, hm, rfl⟩ := Option.map_eq_some_iff.mp hs
    exact Option.map_eq_some_iff.mpr ⟨m, hm,
      after_forget (w.members.update m status metadata env) fun members => { w with members }⟩

end Worker

def Turn.Honest : Turn → Prop
  | other action => action.Honest
  | check _ _ | wake _ _ | send _ _ => True

namespace Loop

def Targets (L : Loop) (target : Name) : Prop :=
  (L.worker.members.members target).isSome = true ∧ target ≠ L.worker.members.localName

structure Sound (L : Loop) : Prop where
  wf : L.worker.members.Wf
  targets : ∀ id check, L.checks id = some check → L.Targets check.target

variable {L L' : Loop} {l : Turn × Env} {id : CheckId} {check : Check} {env : Env}

theorem Sound.peer (h : L.Sound) (hc : L.checks id = some check) {m : Member}
    (hm : L.worker.members.members check.target = some m) :
    L.worker.peer check.target = some m := by
  refine Worker.peer_eq_some.mpr ⟨hm, ?_⟩
  rw [← Bool.not_eq_true, h.wf.isLocal _ _ hm]
  exact (h.targets id check hc).2

def Moves (w : Worker) (env : Env) (w' : Worker) : Prop :=
  w'.forget = w.forget ∨ ∃ action, action.Honest ∧ w.forget.step action env = some w'.forget

/-- The actions a turn can make. The verdict of a check is online only if its event is set. -/
def Makes (L : Loop) (turn : Turn) (action : Worker.Action) : Prop :=
  match turn with
  | .check _ target => action = .ping target
  | .wake id _ => ∃ check online, L.checks id = some check ∧
      action = .verdict check.target online ∧
      (online = true → ∃ event, check.phase.event = some event ∧ L.worker.events event = true)
  | .send id indirect => ∃ check, L.checks id = some check ∧
      action = .pingReq check.target [indirect]
  | .other own => action = own

theorem Makes.honest {turn : Turn} {action : Worker.Action} (h : L.Makes turn action)
    (ht : turn.Honest) : action.Honest := by
  cases turn with
  | check => cases h; trivial
  | wake =>
    obtain ⟨check, online, -, rfl, -⟩ := h
    trivial
  | send =>
    obtain ⟨check, -, rfl⟩ := h
    trivial
  | other => cases h; exact ht

theorem Makes.ne_receive {turn : Turn} {action : Worker.Action} (h : L.Makes turn action)
    (ht : ∀ packet, turn ≠ .other (.receive packet)) (packet : Packet) :
    action ≠ .receive packet := by
  cases turn with
  | check => cases h; exact nofun
  | wake =>
    obtain ⟨check, online, -, rfl, -⟩ := h
    exact nofun
  | send =>
    obtain ⟨check, -, rfl⟩ := h
    exact nofun
  | other own =>
    cases h
    exact fun heq => ht packet (congrArg Turn.other heq)

theorem Sound.step_verdict (h : L.Sound) (hc : L.checks id = some check) {m : Member}
    (hm : L.worker.members.members check.target = some m) (online : Bool) :
    L.worker.forget.step (.verdict check.target online) env =
      some (L.verdict id m online env).worker.forget := by
  refine Worker.step_forget h.wf.toKeyed (Option.map_eq_some_iff.mpr ⟨m, h.peer hc hm, ?_⟩)
  rfl

theorem Sound.makes_wake (h : L.Sound) (hc : L.checks id = some check) {m : Member}
    (hm : L.worker.members.members check.target = some m) {draws : List Nat}
    (hs : L.wake id check m draws env = some L') :
    L'.worker.forget = L.worker.forget ∨ ∃ action, L.Makes (.wake id draws) action ∧
      L.worker.forget.step action env = some L'.worker.forget := by
  have hverdict : ∀ online, (online = true → ∃ event, check.phase.event = some event ∧
      L.worker.events event = true) → ∃ action, L.Makes (.wake id draws) action ∧
        L.worker.forget.step action env = some (L.verdict id m online env).worker.forget :=
    fun online ho => ⟨_, ⟨check, online, hc, rfl, ho⟩, h.step_verdict hc hm online⟩
  obtain ⟨target, phase⟩ := check
  cases phase with
  | ping event =>
    simp only [wake] at hs
    split at hs
    · rename_i he
      cases hs
      exact Or.inr (hverdict true fun _ => ⟨event, rfl, he⟩)
    · simp only [indirect] at hs
      split at hs
      · cases hs
      · cases hs; exact Or.inl rfl
      · split at hs
        · cases hs
          exact Or.inr (hverdict false fun ho => absurd ho Bool.false_ne_true)
        · cases hs; exact Or.inl rfl
  | sending indirects =>
    simp only [wake] at hs
    split at hs
    · cases hs; exact Or.inl rfl
    · cases hs
  | pingReq event =>
    cases hs
    exact Or.inr (hverdict _ fun he => ⟨event, rfl, he⟩)
  | done | raised => cases hs

/-- **A turn is an action of the worker**, one that it can make, or nothing. -/
theorem next_makes (h : L.Sound) (hs : L.next l = some L') :
    L'.worker.forget = L.worker.forget ∨ ∃ action, L.Makes l.1 action ∧
      L.worker.forget.step action l.2 = some L'.worker.forget := by
  obtain ⟨turn, env⟩ := l
  cases turn with
  | check id target =>
    simp only [next] at hs
    split at hs
    · obtain ⟨m, hm, rfl⟩ := Option.map_eq_some_iff.mp hs
      exact Or.inr ⟨.ping target, rfl, Option.map_eq_some_iff.mpr ⟨m, hm, rfl⟩⟩
    · cases hs
  | wake id draws =>
    obtain ⟨check, hc, hs⟩ := Option.bind_eq_some_iff.mp hs
    obtain ⟨m, hm, hs⟩ := Option.bind_eq_some_iff.mp hs
    exact h.makes_wake hc hm hs
  | send id indirect =>
    obtain ⟨check, hc, hs⟩ := Option.bind_eq_some_iff.mp hs
    obtain ⟨m, hm⟩ := Option.isSome_iff_exists.mp (h.targets id check hc).1
    obtain ⟨target, phase⟩ := check
    cases phase with
    | sending indirects =>
      simp only [send] at hs
      split at hs
      · cases hs
        have hs : L.worker.step (.pingReq target [indirect]) env =
            some (L.worker.checkPingReq target [indirect]) := by
          refine Option.map_eq_some_iff.mpr ⟨m, h.peer hc hm, ?_⟩
          rw [h.wf.name _ _ hm]
        exact Or.inr ⟨_, ⟨_, hc, rfl⟩, Worker.step_forget h.wf.toKeyed hs⟩
      · cases hs
    | ping | pingReq | done | raised => cases hs
  | other action =>
    simp only [next] at hs
    split at hs
    · obtain ⟨w, hw, rfl⟩ := Option.map_eq_some_iff.mp hs
      exact Or.inr ⟨action, rfl, Worker.step_forget h.wf.toKeyed hw⟩
    · cases hs

theorem next_refines (h : L.Sound) (hl : l.1.Honest) (hs : L.next l = some L') :
    Moves L.worker l.2 L'.worker :=
  (next_makes h hs).imp_right fun ⟨action, hmakes, hstep⟩ => ⟨action, hmakes.honest hl, hstep⟩

theorem Moves.grows {w w' : Worker} (h : Moves w env w') (hwf : w.members.Wf) :
    w'.members.Wf ∧ w.members.Grows w'.members := by
  obtain heq | ⟨action, ha, hs⟩ := h
  · have hmem : w'.forget.members = w.forget.members := by rw [heq]
    have hmem' : w'.members = w.members := hmem
    rw [hmem']; exact ⟨hwf, .refl _⟩
  · exact @Worker.step_wf w.forget w'.forget env action hwf ha hs

theorem wake_checks {m : Member} {draws : List Nat}
    (hs : L.wake id check m draws env = some L') :
    ∃ phase, L'.checks = Function.update L.checks id (some ⟨m.name, phase⟩) := by
  obtain ⟨target, phase⟩ := check
  cases phase with
  | ping event =>
    simp only [wake, indirect] at hs
    split at hs
    · cases hs; exact ⟨_, rfl⟩
    · split at hs
      · cases hs
      · cases hs; exact ⟨_, rfl⟩
      · split at hs
        · cases hs; exact ⟨_, rfl⟩
        · cases hs; exact ⟨_, rfl⟩
  | sending indirects =>
    simp only [wake] at hs
    split at hs
    · cases hs; exact ⟨_, rfl⟩
    · cases hs
  | pingReq event => cases hs; exact ⟨_, rfl⟩
  | done | raised => cases hs

theorem next_checks (h : L.Sound) (hs : L.next l = some L') : L'.checks = L.checks ∨
    ∃ id target phase, L.Targets target ∧
      (∀ check, L.checks id = some check → check.target = target) ∧
      L'.checks = Function.update L.checks id (some ⟨target, phase⟩) := by
  obtain ⟨turn, env⟩ := l
  cases turn with
  | check id target =>
    simp only [next] at hs
    split at hs
    · rename_i hnone
      obtain ⟨m, hm, rfl⟩ := Option.map_eq_some_iff.mp hs
      obtain ⟨hm, hl⟩ := Worker.peer_eq_some.mp hm
      have hne : target ≠ L.worker.members.localName := by
        rintro rfl
        rw [(h.wf.isLocal _ _ hm).mpr rfl] at hl; cases hl
      refine Or.inr ⟨id, m.name, _, ?_, fun check hc => ?_, rfl⟩
      · rw [h.wf.name _ _ hm]
        exact ⟨by rw [hm]; rfl, hne⟩
      · rw [hnone] at hc; cases hc
    · cases hs
  | wake id draws =>
    obtain ⟨check, hc, hs⟩ := Option.bind_eq_some_iff.mp hs
    obtain ⟨m, hm, hs⟩ := Option.bind_eq_some_iff.mp hs
    obtain ⟨phase, hL⟩ := wake_checks hs
    have hname := h.wf.name _ _ hm
    refine Or.inr ⟨id, m.name, phase, by rw [hname]; exact h.targets id check hc, ?_, hL⟩
    intro check' hc'
    cases hc.symm.trans hc'
    exact hname.symm
  | send id indirect =>
    obtain ⟨check, hc, hs⟩ := Option.bind_eq_some_iff.mp hs
    have ht := h.targets id check hc
    obtain ⟨target, phase⟩ := check
    cases phase with
    | sending indirects =>
      simp only [send] at hs
      split at hs
      · cases hs
        refine Or.inr ⟨id, target, _, ht, fun check hc' => ?_, rfl⟩
        cases hc.symm.trans hc'
        rfl
      · cases hs
    | ping | pingReq | done | raised => cases hs
  | other action =>
    simp only [next] at hs
    split at hs
    · obtain ⟨w, -, rfl⟩ := Option.map_eq_some_iff.mp hs
      exact Or.inl rfl
    · cases hs

theorem Sound.next (h : L.Sound) (hl : l.1.Honest) (hs : L.next l = some L') : L'.Sound := by
  obtain ⟨hwf, hg⟩ := (next_refines h hl hs).grows h.wf
  have hkeep : ∀ target, L.Targets target → L'.Targets target := by
    rintro target ⟨hsome, hne⟩
    obtain ⟨m, hm⟩ := Option.isSome_iff_exists.mp hsome
    obtain ⟨m', hm', -⟩ := hg.entry target m hm
    exact ⟨by rw [hm']; rfl, by rw [hg.localName]; exact hne⟩
  refine ⟨hwf, fun k c hc => ?_⟩
  obtain heq | ⟨id, target, phase, ht, -, heq⟩ := next_checks h hs
  · rw [heq] at hc
    exact hkeep _ (h.targets k c hc)
  · rw [heq] at hc
    by_cases hk : k = id
    · subst hk
      rw [Function.update_self] at hc
      cases hc
      exact hkeep _ ht
    · rw [Function.update_of_ne hk] at hc
      exact hkeep _ (h.targets k c hc)

theorem sound_start (config : Config) : (start config env).Sound :=
  ⟨Worker.init_wf config, by rintro id check ⟨⟩⟩

/-- **A run of the event loop is a run of the worker's actions**, whatever checks are under way. -/
theorem run_refines {config : Config} {ls : List (Turn × Env)} (hls : ∀ l ∈ ls, l.1.Honest)
    (h : run next (start config env) ls = some L) :
    ∃ actions, (∀ a ∈ actions, a.1.Honest) ∧
      run Worker.next (.init config env) actions = some L.worker.forget := by
  have hrun : (∀ l ∈ ls, l.1.Honest) → L.Sound ∧ ∃ actions, (∀ a ∈ actions, a.1.Honest) ∧
      run Worker.next (.init config env) actions = some L.worker.forget := by
    refine @run_induction _ _ next _ (fun ls L => (∀ l ∈ ls, l.1.Honest) → L.Sound ∧
      ∃ actions : List (Worker.Action × Env), (∀ a ∈ actions, a.1.Honest) ∧
        run Worker.next (.init config env) actions = some L.worker.forget)
      (fun _ => ⟨sound_start config, [], by rintro a ⟨⟩, rfl⟩)
      (fun ls l L L' _ ih hs hls => ?_) _ _ h
    obtain ⟨hsound, actions, hactions, hL⟩ := ih fun k hk => hls k (List.mem_append_left _ hk)
    have hl : l.1.Honest := hls l (List.mem_append_right _ List.mem_cons_self)
    refine ⟨hsound.next hl hs, ?_⟩
    obtain heq | ⟨action, ha, hstep⟩ := next_refines hsound hl hs
    · exact ⟨actions, hactions, by rw [heq]; exact hL⟩
    · refine ⟨actions ++ [(action, l.2)], ?_, ?_⟩
      · intro a hmem
        rcases List.mem_append.mp hmem with hmem | hmem
        · exact hactions a hmem
        · cases List.mem_singleton.mp hmem; exact ha
      · rw [run_append, hL, Option.bind_some, run_cons]
        have hnext : L.worker.forget.next (action, l.2) = some L'.worker.forget := hstep
        rw [hnext]; rfl
  exact (hrun hls).2

end Loop

end Swim
