import Swim.Draws
import Swim.Refines
import Swim.Cluster
import Swim.Stale

/-!
# Swim.Turns

What one turn of the event loop does, whatever the turn.

* `next_calls` — the table changes by calls of its methods.
* `next_drawn` — other members stay other members, and their shuffles keep their invariant.
* `next_check_cases` — a turn begins a check, goes on with one, or concerns none.
* `next_done` — a check that ends in a turn ends with its verdict.
* `next_failed` — only the handler fails, and only for an acknowledgement above the counter.
-/

namespace Swim

open Transition

namespace Loop

variable {L L' : Loop} {l : Turn × Env} {id : CheckId}

theorem verdict_calls {n : Name} {m : Member}
    (hm : L.worker.members.members n = some m) (online : Bool) (env : Env) :
    L.worker.members.step (.update n (some (if online then .online else .suspect)) none, env) =
      some (L.verdict id m online env).worker.members := by
  simp only [Members.step, hm, Option.map_some, verdict, put, Worker.checkVerdict,
    Worker.handleStatus_eq, Worker.withMembers, Py.after_inside]

theorem next_calls (h : L.worker.members.Keyed) (hs : L.next l = some L') :
    ∃ ops : List Members.Op,
      run Members.step L.worker.members (ops.map fun op => (op, l.2)) = some L'.worker.members := by
  obtain ⟨turn, env⟩ := l
  cases turn with
  | check id target =>
    simp only [next] at hs
    split at hs
    · obtain ⟨m, -, rfl⟩ := Option.map_eq_some_iff.mp hs
      exact ⟨[], rfl⟩
    · cases hs
  | wake id draws =>
    obtain ⟨⟨target, phase⟩, -, hs⟩ := Option.bind_eq_some_iff.mp hs
    obtain ⟨m, hm, hs⟩ := Option.bind_eq_some_iff.mp hs
    have hverdict : ∀ online, ∃ ops : List Members.Op, run Members.step L.worker.members
        (ops.map fun op => (op, env)) = some (L.verdict id m online env).worker.members :=
      fun online => ⟨[_], (run_singleton _ _).trans (verdict_calls hm online env)⟩
    cases phase with
    | ping event =>
      simp only [wake, indirect] at hs
      split at hs
      · cases hs; exact hverdict true
      · split at hs
        · cases hs
        · cases hs; exact ⟨[], rfl⟩
        · split at hs
          · cases hs; exact hverdict false
          · cases hs; exact ⟨[], rfl⟩
    | sending indirects =>
      simp only [wake] at hs
      split at hs
      · cases hs; exact ⟨[], rfl⟩
      · cases hs
    | pingReq event => cases hs; exact hverdict _
    | done | raised => cases hs
  | send id indirect =>
    obtain ⟨⟨target, phase⟩, -, hs⟩ := Option.bind_eq_some_iff.mp hs
    cases phase with
    | sending indirects =>
      simp only [send] at hs
      split at hs
      · cases hs
        refine ⟨[], ?_⟩
        rw [Worker.checkPingReq, Worker.sendAll_eq]
        rfl
      · cases hs
    | ping | pingReq | done | raised => cases hs
  | other action =>
    simp only [next] at hs
    split at hs
    · obtain ⟨w, hw, rfl⟩ := Option.map_eq_some_iff.mp hs
      obtain ⟨ops, -, hrun⟩ := Worker.step_calls h hw
      exact ⟨ops, hrun⟩
    · cases hs

theorem next_drawn (h : L.worker.members.Drawn) (hs : L.next l = some L') :
    L'.worker.members.Drawn ∧
      ∀ n, (L.worker.peer n).isSome = true → (L'.worker.peer n).isSome = true := by
  obtain ⟨ops, hrun⟩ := next_calls h.stocked.ordered.keyed hs
  let Keeps : Members → Prop := fun M => M.Drawn ∧ ∀ n, (L.worker.peer n).isSome = true →
    ∃ m, M.members n = some m ∧ m.isLocal = false
  have hkeeps : Keeps L'.worker.members := by
    refine (always_of_along (P := Keeps) ⟨h, fun n hn => ?_⟩ (along_true _ _)
      fun M l M' hM _ hs => ⟨hM.1.step hs, fun n hn => ?_⟩).last hrun
    · obtain ⟨m, hm⟩ := Option.isSome_iff_exists.mp hn
      exact ⟨m, Worker.peer_eq_some.mp hm⟩
    · obtain ⟨m, hm, hl⟩ := hM.2 n hn
      obtain ⟨m', hm', hl'⟩ := Members.step_isLocal hM.1.stocked.ordered.keyed hs hm
      exact ⟨m', hm', hl'.trans hl⟩
  refine ⟨hkeeps.1, fun n hn => ?_⟩
  obtain ⟨m, hm⟩ := hkeeps.2 n hn
  rw [Worker.peer_eq_some.mpr hm]
  rfl

theorem next_check_cases (h : L.worker.members.Keyed) (hs : L.next l = some L') :
    L'.checks = L.checks ∨
    (∃ id target check, l.1 = .check id target ∧ L.checks id = none ∧
      L'.checks = Function.update L.checks id (some check)) ∨
    ∃ id check check', L.checks id = some check ∧ check.phase.open = true ∧
      check'.target = check.target ∧ L'.checks = Function.update L.checks id (some check') := by
  obtain ⟨turn, env⟩ := l
  cases turn with
  | check id target =>
    simp only [next] at hs
    split at hs
    · rename_i hnone
      obtain ⟨m, -, rfl⟩ := Option.map_eq_some_iff.mp hs
      exact Or.inr (Or.inl ⟨id, target, _, rfl, hnone, rfl⟩)
    · cases hs
  | wake id draws =>
    obtain ⟨check, hc, hs⟩ := Option.bind_eq_some_iff.mp hs
    obtain ⟨m, hm, hs⟩ := Option.bind_eq_some_iff.mp hs
    obtain ⟨phase, hL⟩ := wake_checks hs
    refine Or.inr (Or.inr ⟨id, check, _, hc, ?_, h.name _ _ hm, hL⟩)
    obtain ⟨target, phase⟩ := check
    cases phase with
    | ping | sending | pingReq => rfl
    | done | raised => cases hs
  | send id indirect =>
    obtain ⟨⟨target, phase⟩, hc, hs⟩ := Option.bind_eq_some_iff.mp hs
    cases phase with
    | sending indirects =>
      simp only [send] at hs
      split at hs
      · cases hs
        exact Or.inr (Or.inr ⟨id, _, ⟨target, .sending (indirects.erase indirect)⟩, hc, rfl, rfl,
          rfl⟩)
      · cases hs
    | ping | pingReq | done | raised => cases hs
  | other action =>
    simp only [next] at hs
    split at hs
    · obtain ⟨w, -, rfl⟩ := Option.map_eq_some_iff.mp hs
      exact Or.inl rfl
    · cases hs

theorem next_done (h : L.worker.members.Keyed) (hs : L.next l = some L') {target : Name}
    {online : Bool} (hd : L'.checks id = some ⟨target, .done online⟩)
    (hnot : L.checks id ≠ some ⟨target, .done online⟩) :
    ∃ draws check m, l.1 = .wake id draws ∧ L.checks id = some check ∧ check.target = target ∧
      L.worker.members.members target = some m ∧
      (online = true → ∃ event, check.phase.event = some event ∧ L.worker.events event = true) ∧
      L' = L.verdict id m online l.2 := by
  have hself : ∀ {k : CheckId} {c : Check} {M : Loop}, M.checks = L.checks →
      (M.put k c).checks id = some ⟨target, .done online⟩ →
        k = id ∧ c = ⟨target, .done online⟩ := by
    intro k c M hM hput
    by_cases hk : id = k
    · subst hk
      rw [put_checks_self] at hput
      exact ⟨rfl, Option.some.inj hput⟩
    · rw [put_checks_of_ne _ _ hk, hM] at hput
      exact absurd hput hnot
  obtain ⟨turn, env⟩ := l
  cases turn with
  | check k t =>
    simp only [next] at hs
    split at hs
    · obtain ⟨m, -, rfl⟩ := Option.map_eq_some_iff.mp hs
      obtain ⟨-, hc⟩ := hself rfl hd
      cases hc
    · cases hs
  | wake k draws =>
    obtain ⟨⟨t, phase⟩, hc, hs⟩ := Option.bind_eq_some_iff.mp hs
    obtain ⟨m, hm, hs⟩ := Option.bind_eq_some_iff.mp hs
    have hname : m.name = t := h.name _ _ hm
    have hverdict : ∀ {b : Bool}, (b = true → ∃ event, phase.event = some event ∧
        L.worker.events event = true) → L' = L.verdict k m b env →
        ∃ draws' check m', Turn.wake k draws = .wake id draws' ∧ L.checks id = some check ∧
          check.target = target ∧ L.worker.members.members target = some m' ∧
          (online = true → ∃ event, check.phase.event = some event ∧
            L.worker.events event = true) ∧ L' = L.verdict id m' online env := by
      rintro b hb rfl
      obtain ⟨rfl, hcheck⟩ := hself rfl hd
      cases hcheck
      exact ⟨draws, ⟨t, phase⟩, m, rfl, hc, hname.symm, by rw [hname]; exact hm, hb, rfl⟩
    cases phase with
    | ping event =>
      simp only [wake, indirect] at hs
      split at hs
      · rename_i he
        cases hs
        exact hverdict (fun _ => ⟨event, rfl, he⟩) rfl
      · split at hs
        · cases hs
        · cases hs
          cases (hself rfl hd).2
        · split at hs
          · cases hs
            exact hverdict (fun hb => absurd hb Bool.false_ne_true) rfl
          · cases hs
            cases (hself rfl hd).2
    | sending indirects =>
      simp only [wake] at hs
      split at hs
      · cases hs
        cases (hself rfl hd).2
      · cases hs
    | pingReq event =>
      cases hs
      exact hverdict (fun he => ⟨event, rfl, he⟩) rfl
    | done | raised => cases hs
  | send k indirect =>
    obtain ⟨⟨t, phase⟩, hc, hs⟩ := Option.bind_eq_some_iff.mp hs
    cases phase with
    | sending indirects =>
      simp only [send] at hs
      split at hs
      · cases hs
        cases (hself rfl hd).2
      · cases hs
    | ping | pingReq | done | raised => cases hs
  | other action =>
    simp only [next] at hs
    split at hs
    · obtain ⟨w, -, rfl⟩ := Option.map_eq_some_iff.mp hs
      exact absurd hd hnot
    · cases hs

theorem next_failed (h : L.Sound) (hl : l.1.Honest) (hs : L.next l = some L') :
    (∃ packet, l.1 = .other (.receive packet) ∧ L.worker.failed = none ∧
      (L'.worker.failed = none ↔
        ∀ a, packet = .gossipAck a → a.clock ≤ L.worker.members.nextClock)) ∨
    (∀ packet, l.1 ≠ .other (.receive packet)) ∧ L'.worker.failed = L.worker.failed := by
  by_cases hr : ∃ packet, l.1 = .other (.receive packet)
  · obtain ⟨packet, hp⟩ := hr
    obtain ⟨turn, env⟩ := l
    cases hp
    obtain ⟨w, hw, rfl⟩ := Option.map_eq_some_iff.mp hs
    obtain ⟨hf, rfl⟩ := Worker.step_receive hw
    exact Or.inl ⟨packet, rfl, hf, Cluster.receive_failed_iff h.wf hl⟩
  · have hne : ∀ packet, l.1 ≠ .other (.receive packet) := fun packet hp => hr ⟨packet, hp⟩
    refine Or.inr ⟨hne, ?_⟩
    have hforget : L'.worker.forget.failed = L.worker.forget.failed := by
      obtain heq | ⟨action, hmakes, hstep⟩ := next_makes h hs
      · rw [heq]
      · have hwf : L.worker.forget.members.Wf := h.wf
        obtain ⟨packet, rfl, -⟩ | ⟨_, _, _, _, _, -, -, -, -, -, -, heq⟩ | ⟨-, -, heq⟩ :=
          Worker.step_cases hwf (hmakes.honest hl) hstep
        · exact absurd rfl (hmakes.ne_receive hne packet)
        · rw [heq]
        · rw [heq]
    exact hforget

end Loop

end Swim
