import Swim.Turns

/-!
# Swim.Daemon

`Worker.run`: the handler and the two loops that `asyncio.gather` runs side by side, and the tasks
that `TaskOwner.run_subtask` creates for them.

* `runFailureDetection`, `runDissemination` — one pass of each loop, between two sleeps.
* `runSubtask` — the task is created, and kept in `_running` until its callback discards it. Its
  coroutine begins in a later turn.
* `gather` — the first exception of the three ends `run`, and the other two go on.
* `exit` — `DaemonTask.__aexit__` cancels `run`, and with it the three coroutines, unless `run` has
  ended.

The results are about every run: `detects_iff` and `spreads_iff` give the outcomes of a pass,
`tasks_kept` says what becomes of the tasks, and `ends_iff` when `run` ends.
-/

namespace Swim

open Transition
open Worker (nodeA still)

inductive Subtask where
  | check (target : Name)
  | disseminate (target : Name)
  deriving DecidableEq

def Subtask.target : Subtask → Name
  | check target | disseminate target => target

def Subtask.turn (id : CheckId) : Subtask → Turn
  | check target => .check id target
  | disseminate target => .other (.disseminate target)

/-- `created` holds the tasks that have not begun. `detection` and `dissemination` are the
exceptions that ended the two loops, and `outcome` is what `gather` raised. -/
structure Daemon where
  loop : Loop
  nextTask : CheckId
  created : CheckId → Option Subtask
  running : Finset CheckId
  detection : Option PyError
  dissemination : Option PyError
  outcome : Option PyError
  cancelled : Bool

namespace Daemon

/-- What the event loop runs next. `order` is the order in which the set of targets is iterated. -/
inductive Event where
  | detect (draws : List Nat) (order : List Name)
  | spread (draws : List Nat) (order : List Name)
  | begin (id : CheckId)
  | turn (turn : Turn)
  | discard (id : CheckId)
  | exit

def runSubtask (d : Daemon) (subtask : Subtask) : Daemon :=
  { d with
    nextTask := d.nextTask + 1
    created := Function.update d.created d.nextTask (some subtask)
    running := insert d.nextTask d.running }

def gather (d : Daemon) (raised : Option PyError) : Daemon :=
  { d with outcome := d.outcome.or raised }

/-- `run_failure_detection` ends. -/
def stop (d : Daemon) (e : PyError) : Daemon := { d with detection := some e }.gather (some e)

def runFailureDetection (d : Daemon) (draws : List Nat) (order : List Name) : Option Daemon :=
  match d.loop.worker.members.find 1 .all ∅ draws with
  | none => none
  | some (.error e) => some (d.stop e)
  | some (.ok targets) =>
    if targets = ∅ then some (d.stop .assertion)
    else if order.Nodup ∧ order.toFinset = targets then
      some (order.foldl (fun d target => d.runSubtask (.check target)) d)
    else none

def runDissemination (d : Daemon) (draws : List Nat) (order : List Name) : Option Daemon :=
  match d.loop.worker.members.find 1 .available ∅ draws with
  | none => none
  | some (.error e) => some ({ d with dissemination := some e }.gather (some e))
  | some (.ok targets) =>
    if order.Nodup ∧ order.toFinset = targets then
      some (order.foldl (fun d target => d.runSubtask (.disseminate target)) d)
    else none

def finished (d : Daemon) (id : CheckId) : Bool :=
  d.created id = none && (d.loop.checks id).all fun check => !check.phase.open

/-- The turns of the handler, of tasks that have begun, of timers and of the application. -/
def own (d : Daemon) : Turn → Bool
  | .check _ _ | .other (.disseminate _) => false
  | .other (.receive _) => !d.cancelled
  | .wake _ _ | .send _ _ | .other _ => true

def next (d : Daemon) (l : Event × Env) : Option Daemon :=
  match l.1 with
  | .detect draws order =>
    if d.cancelled = false ∧ d.detection = none then d.runFailureDetection draws order else none
  | .spread draws order =>
    if d.cancelled = false ∧ d.dissemination = none then d.runDissemination draws order else none
  | .begin id =>
    (d.created id).bind fun subtask =>
      (d.loop.next (subtask.turn id, l.2)).map fun loop =>
        { d with loop, created := Function.update d.created id none }
  | .turn turn =>
    if d.own turn then
      (d.loop.next (turn, l.2)).map fun loop => { d with loop }.gather loop.worker.failed
    else none
  | .discard id =>
    if id ∈ d.running ∧ d.finished id = true then some { d with running := d.running.erase id }
    else none
  | .exit => some (if d.outcome = none then { d with cancelled := true } else d)

def start (config : Config) (env : Env) : Daemon where
  loop := .start config env
  nextTask := 0
  created := fun _ => none
  running := ∅
  detection := none
  dissemination := none
  outcome := none
  cancelled := false

variable {config : Config} {env : Env} {d d' : Daemon} {l : Event × Env} {id : CheckId}

/-! ## Tasks -/

structure Kept (d : Daemon) : Prop where
  drawn : d.loop.worker.members.Drawn
  fresh : ∀ id, d.nextTask ≤ id → d.created id = none ∧ d.loop.checks id = none
  apart : ∀ id subtask, d.created id = some subtask → d.loop.checks id = none
  others : ∀ id subtask, d.created id = some subtask →
    (d.loop.worker.peer subtask.target).isSome = true
  kept : ∀ id, d.finished id = false → id ∈ d.running
  quiet : d.dissemination = none

theorem finished_eq_false : d.finished id = false ↔ (d.created id).isSome = true ∨
    ∃ check, d.loop.checks id = some check ∧ check.phase.open = true := by
  rw [finished]
  cases d.created id with
  | some subtask => simp
  | none =>
    cases d.loop.checks id with
    | none => simp
    | some check => simp

theorem Kept.lt (h : d.Kept) (hid : d.finished id = false) : id < d.nextTask := by
  by_contra hge
  obtain ⟨hcreated, hcheck⟩ := h.fresh id (Nat.le_of_not_lt hge)
  rw [finished, hcreated, hcheck] at hid
  cases hid

theorem Kept.runSubtask (h : d.Kept) {subtask : Subtask}
    (hpeer : (d.loop.worker.peer subtask.target).isSome = true) : (d.runSubtask subtask).Kept := by
  have hne : ∀ id, id ≠ d.nextTask → (d.runSubtask subtask).created id = d.created id :=
    fun id hid => Function.update_of_ne hid _ _
  have hself : (d.runSubtask subtask).created d.nextTask = some subtask :=
    Function.update_self _ _ _
  refine ⟨h.drawn, fun id hid => ?_, fun id sub hsub => ?_, fun id sub hsub => ?_,
    fun id hid => ?_, h.quiet⟩
  · have hlt : d.nextTask < id := hid
    rw [hne id (Nat.ne_of_gt hlt)]
    exact h.fresh id hlt.le
  · by_cases hid : id = d.nextTask
    · rw [hid]
      exact (h.fresh _ le_rfl).2
    · rw [hne id hid] at hsub
      exact h.apart id sub hsub
  · by_cases hid : id = d.nextTask
    · subst hid
      cases hself.symm.trans hsub
      exact hpeer
    · rw [hne id hid] at hsub
      exact h.others id sub hsub
  · by_cases hnew : id = d.nextTask
    · rw [hnew]
      exact Finset.mem_insert_self _ _
    · refine Finset.mem_insert_of_mem (h.kept id ?_)
      rw [finished_eq_false, hne id hnew] at hid
      exact finished_eq_false.mpr hid

theorem foldl_runSubtask {order : List Name} {n : Name} (ho : order.Nodup ∧ order.toFinset = {n})
    (f : Name → Subtask) : order.foldl (fun d target => d.runSubtask (f target)) d =
      d.runSubtask (f n) := by
  obtain ⟨hnodup, hset⟩ := ho
  have hlen : order.length = 1 := by
    rw [← List.toFinset_card_of_nodup hnodup, hset, Finset.card_singleton]
  obtain ⟨k, rfl⟩ := List.length_eq_one_iff.mp hlen
  have hk : k = n := by simpa using hset
  rw [hk]
  rfl

/-! ## The two loops -/

theorem forall_peer_iff {w : Worker} : (∀ n, w.peer n = none) ↔
    ∀ n m, w.members.members n = some m → m.isLocal = true := by
  constructor
  · intro h n m hm
    by_contra hl
    have hpeer := Worker.peer_eq_some.mpr ⟨hm, by simpa using hl⟩
    rw [h n] at hpeer
    cases hpeer
  · intro h n
    by_contra hne
    obtain ⟨m, hm⟩ := Option.ne_none_iff_exists'.mp hne
    obtain ⟨hm, hl⟩ := Worker.peer_eq_some.mp hm
    rw [h n m hm] at hl
    cases hl

theorem Kept.detection_iff (h : d.Kept) :
    (∃ draws order, d.runFailureDetection draws order = some d') ↔
      (∃ n, (d.loop.worker.peer n).isSome = true ∧ d' = d.runSubtask (.check n)) ∨
        (∀ n, d.loop.worker.peer n = none) ∧ d' = d.stop .assertion := by
  constructor
  · rintro ⟨draws, order, hd⟩
    rw [runFailureDetection] at hd
    cases hfind : d.loop.worker.members.find 1 .all ∅ draws with
    | none => rw [hfind] at hd; cases hd
    | some r =>
      rw [hfind] at hd
      obtain ⟨hno, rfl⟩ | ⟨n, m, hm, hl, rfl⟩ := (h.drawn.find_any_iff r).mp ⟨draws, hfind⟩
      · cases hd
        exact Or.inr ⟨forall_peer_iff.mpr hno, rfl⟩
      · dsimp only at hd
        rw [if_neg (Finset.singleton_ne_empty n)] at hd
        split at hd
        · rename_i ho
          rw [foldl_runSubtask ho] at hd
          cases hd
          exact Or.inl ⟨n, by rw [Worker.peer_eq_some.mpr ⟨hm, hl⟩]; rfl, rfl⟩
        · cases hd
  · rintro (⟨n, hn, rfl⟩ | ⟨hno, rfl⟩)
    · obtain ⟨m, hm⟩ := Option.isSome_iff_exists.mp hn
      obtain ⟨hm, hl⟩ := Worker.peer_eq_some.mp hm
      obtain ⟨draws, hfind⟩ := (h.drawn.find_any_iff _).mpr (Or.inr ⟨n, m, hm, hl, rfl⟩)
      have ho : [n].Nodup ∧ [n].toFinset = {n} := by simp
      refine ⟨draws, [n], ?_⟩
      rw [runFailureDetection, hfind]
      dsimp only
      rw [if_neg (Finset.singleton_ne_empty n), if_pos ho, foldl_runSubtask ho]
    · obtain ⟨draws, hfind⟩ := (h.drawn.find_any_iff _).mpr
        (Or.inl ⟨forall_peer_iff.mp hno, rfl⟩)
      refine ⟨draws, [], ?_⟩
      rw [runFailureDetection, hfind]
      rfl

theorem Kept.dissemination_iff (h : d.Kept) :
    (∃ draws order, d.runDissemination draws order = some d') ↔
      (∃ n ∈ (d.loop.worker.members.statuses .available).drawable,
        d' = d.runSubtask (.disseminate n)) ∨
        (d.loop.worker.members.statuses .available).iter = ∅ ∧ d' = d := by
  constructor
  · rintro ⟨draws, order, hd⟩
    rw [runDissemination] at hd
    cases hfind : d.loop.worker.members.find 1 .available ∅ draws with
    | none => rw [hfind] at hd; cases hd
    | some r =>
      rw [hfind] at hd
      obtain ⟨hno, rfl⟩ | ⟨n, hn, rfl⟩ := (h.drawn.find_one_iff _ r).mp ⟨draws, hfind⟩
      · dsimp only at hd
        split at hd
        · rename_i ho
          rw [(List.toFinset_eq_empty_iff order).mp ho.2] at hd
          cases hd
          exact Or.inr ⟨hno, rfl⟩
        · cases hd
      · dsimp only at hd
        split at hd
        · rename_i ho
          rw [foldl_runSubtask ho] at hd
          cases hd
          exact Or.inl ⟨n, hn, rfl⟩
        · cases hd
  · rintro (⟨n, hn, rfl⟩ | ⟨hno, rfl⟩)
    · obtain ⟨draws, hfind⟩ := (h.drawn.find_one_iff _ _).mpr (Or.inr ⟨n, hn, rfl⟩)
      have ho : [n].Nodup ∧ [n].toFinset = {n} := by simp
      refine ⟨draws, [n], ?_⟩
      rw [runDissemination, hfind]
      dsimp only
      rw [if_pos ho, foldl_runSubtask ho]
    · obtain ⟨draws, hfind⟩ := (h.drawn.find_one_iff _ _).mpr (Or.inl ⟨hno, rfl⟩)
      refine ⟨draws, [], ?_⟩
      rw [runDissemination, hfind]
      rfl

/-- **What one event does.** -/
theorem Kept.next_cases (h : d.Kept) (hs : d.next l = some d') :
    (∃ draws order, l.1 = .detect draws order ∧
      (d.cancelled = false ∧ d.detection = none) ∧
      ((∃ n, (d.loop.worker.peer n).isSome = true ∧ d' = d.runSubtask (.check n)) ∨
        (∀ n, d.loop.worker.peer n = none) ∧ d' = d.stop .assertion)) ∨
    (∃ draws order, l.1 = .spread draws order ∧ ((∃ n ∈
      (d.loop.worker.members.statuses .available).drawable,
        d' = d.runSubtask (.disseminate n)) ∨ d' = d)) ∨
    (∃ id subtask loop, l.1 = .begin id ∧ d.created id = some subtask ∧
      d.loop.next (subtask.turn id, l.2) = some loop ∧
      d' = { d with loop, created := Function.update d.created id none }) ∨
    (∃ turn loop, l.1 = .turn turn ∧ d.own turn = true ∧ d.loop.next (turn, l.2) = some loop ∧
      d' = { d with loop }.gather loop.worker.failed) ∨
    (∃ id, l.1 = .discard id ∧ d.finished id = true ∧
      d' = { d with running := d.running.erase id }) ∨
    l.1 = .exit ∧ d' = if d.outcome = none then { d with cancelled := true } else d := by
  obtain ⟨event, env⟩ := l
  cases event with
  | detect draws order =>
    simp only [Daemon.next] at hs
    split at hs
    · rename_i hactive
      exact Or.inl ⟨draws, order, rfl, hactive, h.detection_iff.mp ⟨draws, order, hs⟩⟩
    · cases hs
  | spread draws order =>
    simp only [Daemon.next] at hs
    split at hs
    · refine Or.inr (Or.inl ⟨draws, order, rfl, ?_⟩)
      exact (h.dissemination_iff.mp ⟨draws, order, hs⟩).imp_right fun hsame => hsame.2
    · cases hs
  | begin id =>
    obtain ⟨subtask, hsub, hs⟩ := Option.bind_eq_some_iff.mp hs
    obtain ⟨loop, hloop, rfl⟩ := Option.map_eq_some_iff.mp hs
    exact Or.inr (Or.inr (Or.inl ⟨id, subtask, loop, rfl, hsub, hloop, rfl⟩))
  | turn turn =>
    simp only [Daemon.next] at hs
    split at hs
    · rename_i hown
      obtain ⟨loop, hloop, rfl⟩ := Option.map_eq_some_iff.mp hs
      exact Or.inr (Or.inr (Or.inr (Or.inl ⟨turn, loop, rfl, hown, hloop, rfl⟩)))
    · cases hs
  | discard id =>
    simp only [Daemon.next] at hs
    split at hs
    · rename_i hfin
      cases hs
      exact Or.inr (Or.inr (Or.inr (Or.inr (Or.inl ⟨id, rfl, hfin.2, rfl⟩))))
    · cases hs
  | exit =>
    cases hs
    exact Or.inr (Or.inr (Or.inr (Or.inr (Or.inr ⟨rfl, rfl⟩))))

theorem Kept.loop (h : d.Kept) {turn : Turn} {loop : Loop}
    (hne : ∀ id target, turn ≠ .check id target) (hs : d.loop.next (turn, env) = some loop) :
    ({ d with loop } : Daemon).Kept := by
  obtain ⟨hdrawn, hpeers⟩ := Loop.next_drawn h.drawn hs
  have hchecks : ∀ id, (d.loop.checks id = none → loop.checks id = none) ∧
      ((∃ check, loop.checks id = some check ∧ check.phase.open = true) →
        ∃ check, d.loop.checks id = some check ∧ check.phase.open = true) := by
    intro id
    obtain heq | ⟨k, target, -, hturn, -⟩ | ⟨k, check, check', hc, ho, -, heq⟩ :=
      Loop.next_check_cases h.drawn.stocked.ordered.keyed hs
    · rw [heq]
      exact ⟨fun hnone => hnone, fun hopen => hopen⟩
    · exact absurd hturn (hne k target)
    · rw [heq]
      by_cases hk : id = k
      · rw [hk]
        exact ⟨fun hnone => absurd (hnone.symm.trans hc) (by simp), fun _ => ⟨check, hc, ho⟩⟩
      · rw [Function.update_of_ne hk]
        exact ⟨fun hnone => hnone, fun hopen => hopen⟩
  refine ⟨hdrawn, fun id hid => ?_, fun id subtask hsub => ?_, fun id subtask hsub => ?_,
    fun id hid => ?_, h.quiet⟩
  · obtain ⟨hcreated, hnone⟩ := h.fresh id hid
    exact ⟨hcreated, (hchecks id).1 hnone⟩
  · exact (hchecks id).1 (h.apart id subtask hsub)
  · exact hpeers _ (h.others id subtask hsub)
  · refine h.kept id (finished_eq_false.mpr ?_)
    exact (finished_eq_false.mp hid).imp_right (hchecks id).2

theorem Kept.begin (h : d.Kept) {subtask : Subtask} (hsub : d.created id = some subtask)
    {loop : Loop} (hs : d.loop.next (subtask.turn id, env) = some loop) :
    ({ d with loop, created := Function.update d.created id none } : Daemon).Kept := by
  obtain ⟨hdrawn, hpeers⟩ := Loop.next_drawn h.drawn hs
  have hlt : id < d.nextTask := h.lt (finished_eq_false.mpr (Or.inl (by rw [hsub]; rfl)))
  have hne : ∀ k, k ≠ id → loop.checks k = d.loop.checks k := by
    intro k hk
    obtain heq | ⟨j, target, check, hturn, -, heq⟩ | ⟨j, check, check', hc, ho, -, heq⟩ :=
      Loop.next_check_cases h.drawn.stocked.ordered.keyed hs
    · rw [heq]
    · have hj : j = id := by cases subtask <;> cases hturn; rfl
      rw [heq, hj, Function.update_of_ne hk]
    · cases subtask with
      | check target =>
        simp only [Subtask.turn, Loop.next] at hs
        split at hs
        · obtain ⟨m, -, rfl⟩ := Option.map_eq_some_iff.mp hs
          exact Loop.put_checks_of_ne _ _ hk
        · cases hs
      | disseminate target =>
        obtain ⟨w, -, rfl⟩ := Option.map_eq_some_iff.mp hs
        rfl
  have hcreated : ∀ k, k ≠ id → Function.update d.created id none k = d.created k :=
    fun k hk => Function.update_of_ne hk _ _
  have hself : Function.update d.created id none id = none := Function.update_self _ _ _
  refine ⟨hdrawn, fun k hk => ?_, fun k sub hk => ?_, fun k sub hk => ?_, fun k hk => ?_, h.quiet⟩
  · have hki : k ≠ id := Nat.ne_of_gt (Nat.lt_of_lt_of_le hlt hk)
    show Function.update d.created id none k = none ∧ loop.checks k = none
    rw [hcreated k hki, hne k hki]
    exact h.fresh k hk
  · by_cases hki : k = id
    · rw [hki] at hk
      cases hself.symm.trans hk
    · exact (hne k hki).trans (h.apart k sub ((hcreated k hki).symm.trans hk))
  · by_cases hki : k = id
    · rw [hki] at hk
      cases hself.symm.trans hk
    · exact hpeers _ (h.others k sub ((hcreated k hki).symm.trans hk))
  · refine h.kept k (finished_eq_false.mpr ?_)
    by_cases hki : k = id
    · rw [hki, hsub]
      exact Or.inl rfl
    · have hopen := finished_eq_false.mp hk
      dsimp only at hopen
      rwa [hcreated k hki, hne k hki] at hopen

theorem own_ne {turn : Turn} (h : d.own turn = true) (id : CheckId) (target : Name) :
    turn ≠ .check id target := by
  rintro rfl
  cases h

theorem Kept.next (h : d.Kept) (hs : d.next l = some d') : d'.Kept := by
  obtain ⟨draws, order, -, -, ⟨n, hn, rfl⟩ | ⟨-, rfl⟩⟩ | ⟨draws, order, -, ⟨n, hn, rfl⟩ | rfl⟩ |
    ⟨id, subtask, loop, -, hsub, hloop, rfl⟩ | ⟨turn, loop, -, hown, hloop, rfl⟩ |
    ⟨id, -, hfin, rfl⟩ | ⟨-, rfl⟩ := h.next_cases hs
  · exact h.runSubtask hn
  · exact ⟨h.drawn, h.fresh, h.apart, h.others, h.kept, h.quiet⟩
  · obtain ⟨m, hm⟩ := h.drawn.others _ n hn
    exact h.runSubtask (by rw [Subtask.target, Worker.peer_eq_some.mpr hm]; rfl)
  · exact h
  · exact h.begin hsub hloop
  · obtain ⟨h1, h2, h3, h4, h5, h6⟩ := h.loop (own_ne hown) hloop
    exact ⟨h1, h2, h3, h4, h5, h6⟩
  · refine ⟨h.drawn, h.fresh, h.apart, h.others, fun k hk => ?_, h.quiet⟩
    have hk' : d.finished k = false := hk
    refine Finset.mem_erase.mpr ⟨?_, h.kept k hk'⟩
    rintro rfl
    rw [hfin] at hk'
    cases hk'
  · split
    · exact ⟨h.drawn, h.fresh, h.apart, h.others, h.kept, h.quiet⟩
    · exact h

theorem kept_start (config : Config) (env : Env) : (start config env).Kept where
  drawn := Members.drawn_init config env
  fresh := fun _ _ => ⟨rfl, rfl⟩
  apart := by rintro id subtask ⟨⟩
  others := by rintro id subtask ⟨⟩
  kept := by rintro id ⟨⟩
  quiet := rfl

theorem kept_run {ls : List (Event × Env)} (h : run next (start config env) ls = some d) :
    d.Kept :=
  (always_of_along (kept_start config env) (along_true _ ls) fun _ _ _ hk _ hs => hk.next hs).last h

/-! ## What the runs show -/

/-- The first pass of a node that knows one other. -/
def probed : List (Event × Env) := [(.detect [0] ["b"], still)]

/-- **A pass of dissemination**, in every run: the loop has not failed, and the pass creates one
task, for another member that `choice` can draw, or none when no other member is available. -/
theorem spreads_iff {ls : List (Event × Env)} (h : run next (start config env) ls = some d)
    (hactive : d.cancelled = false) (d' : Daemon) :
    d.dissemination = none ∧
      ((∃ draws order env', d.next (.spread draws order, env') = some d') ↔
        (∃ target ∈ (d.loop.worker.members.statuses .available).drawable,
          (d.loop.worker.peer target).isSome = true ∧ d' = d.runSubtask (.disseminate target)) ∨
        (∀ n m, d.loop.worker.peer n = some m → m.status.overlaps .available = false) ∧
          d' = d) := by
  have hk := kept_run h
  refine ⟨hk.quiet, ?_⟩
  have hrun : (∃ draws order env', d.next (.spread draws order, env') = some d') ↔
      ∃ draws order, d.runDissemination draws order = some d' := by
    constructor
    · rintro ⟨draws, order, env', hd⟩
      exact ⟨draws, order, (if_pos ⟨hactive, hk.quiet⟩).symm.trans hd⟩
    · rintro ⟨draws, order, hd⟩
      exact ⟨draws, order, env, (if_pos ⟨hactive, hk.quiet⟩).trans hd⟩
  rw [hrun, hk.dissemination_iff]
  refine or_congr ?_ (and_congr_left' ?_)
  · constructor
    · rintro ⟨n, hn, rfl⟩
      obtain ⟨m, hm⟩ := hk.drawn.others _ n hn
      exact ⟨n, hn, by rw [Worker.peer_eq_some.mpr hm]; rfl, rfl⟩
    · rintro ⟨n, hn, -, rfl⟩
      exact ⟨n, hn, rfl⟩
  · rw [Finset.eq_empty_iff_forall_notMem]
    constructor
    · intro hno n m hm
      by_contra ho
      rw [Bool.not_eq_false] at ho
      obtain ⟨hm, hl⟩ := Worker.peer_eq_some.mp hm
      exact hno n ((hk.drawn.stocked.ordered.shelved .available n).mpr ⟨m, hm, hl, ho⟩)
    · intro hno n hn
      obtain ⟨m, hm, hl, ho⟩ := (hk.drawn.stocked.ordered.shelved .available n).mp hn
      rw [hno n m (Worker.peer_eq_some.mpr ⟨hm, hl⟩)] at ho
      cases ho

theorem spreads_iff_probed : ∃ d, run next (start nodeA still) probed = some d ∧
    ∀ d', d.dissemination = none ∧
      ((∃ draws order env', d.next (.spread draws order, env') = some d') ↔
        (∃ target ∈ (d.loop.worker.members.statuses .available).drawable,
          (d.loop.worker.peer target).isSome = true ∧ d' = d.runSubtask (.disseminate target)) ∨
        (∀ n m, d.loop.worker.peer n = some m → m.status.overlaps .available = false) ∧
          d' = d) := by
  have hsome : (run next (start nodeA still) probed).map Daemon.cancelled = some false := by
    decide +kernel
  obtain ⟨d, hd, hc⟩ := Option.map_eq_some_iff.mp hsome
  exact ⟨d, hd, fun d' => spreads_iff hd hc d'⟩

/-- **No task is lost**, in every run: `_running` holds every task that is not finished, and the
coroutine of a task that was created can begin. -/
theorem tasks_kept {ls : List (Event × Env)} (h : run next (start config env) ls = some d)
    (id : CheckId) : (d.finished id = false → id ∈ d.running) ∧
      ((d.created id).isSome = true → ∀ env', ∃ d', d.next (.begin id, env') = some d') := by
  have hk := kept_run h
  refine ⟨hk.kept id, fun hcreated env' => ?_⟩
  obtain ⟨subtask, hsub⟩ := Option.isSome_iff_exists.mp hcreated
  obtain ⟨m, hm⟩ := Option.isSome_iff_exists.mp (hk.others id subtask hsub)
  have hloop : ∃ loop, d.loop.next (subtask.turn id, env') = some loop := by
    cases subtask with
    | check target =>
      refine ⟨d.loop.check id m, ?_⟩
      simp only [Subtask.turn, Loop.next, if_pos (hk.apart id _ hsub)]
      exact Option.map_eq_some_iff.mpr ⟨m, hm, rfl⟩
    | disseminate target =>
      refine ⟨{ d.loop with worker := d.loop.worker.disseminate m }, ?_⟩
      have hstep : d.loop.worker.step (.disseminate target) env' =
          some (d.loop.worker.disseminate m) := Option.map_eq_some_iff.mpr ⟨m, hm, rfl⟩
      simp only [Subtask.turn, Loop.next, Loop.outside, if_true, hstep]
      rfl
  obtain ⟨loop, hloop⟩ := hloop
  refine ⟨{ d with loop, created := Function.update d.created id none },
    Option.bind_eq_some_iff.mpr ⟨subtask, hsub, ?_⟩⟩
  exact Option.map_eq_some_iff.mpr ⟨loop, hloop, rfl⟩

theorem tasks_kept_probed : ∃ d, run next (start nodeA still) probed = some d ∧
    (d.finished 0 = false → 0 ∈ d.running) ∧
      ((d.created 0).isSome = true → ∀ env', ∃ d', d.next (.begin 0, env') = some d') := by
  have hsome : (run next (start nodeA still) probed).isSome = true := by decide +kernel
  obtain ⟨d, hd⟩ := Option.isSome_iff_exists.mp hsome
  exact ⟨d, hd, tasks_kept hd 0⟩

/-! ## How `run` ends -/

def Event.Honest : Event → Prop
  | turn t => t.Honest
  | detect _ _ | spread _ _ | begin _ | discard _ | exit => True

def AckAbove (d : Daemon) (l : Event × Env) : Prop :=
  ∃ a, l.1 = .turn (.other (.receive (.gossipAck a))) ∧ d.loop.worker.members.nextClock < a.clock

def Lone (d : Daemon) (l : Event × Env) : Prop :=
  (∃ draws order, l.1 = .detect draws order) ∧ ∀ n, d.loop.worker.peer n = none

structure Ends (d : Daemon) : Prop where
  kept : d.Kept
  sound : d.loop.Sound
  handler : d.loop.worker.failed ≠ none → d.outcome ≠ none

theorem Ends.next (h : d.Ends) (hl : l.1.Honest) (hs : d.next l = some d') :
    d'.Ends ∧ (d'.outcome ≠ none ↔ d.outcome ≠ none ∨ AckAbove d l ∨ Lone d l) := by
  have hkept := h.kept.next hs
  obtain ⟨event, env⟩ := l
  have hsame : (∀ draws order, event ≠ .detect draws order) → (∀ turn, event ≠ .turn turn) →
      d'.outcome = d.outcome →
      (d'.outcome ≠ none ↔ d.outcome ≠ none ∨ AckAbove d (event, env) ∨ Lone d (event, env)) := by
    intro hdetect hturn hout
    rw [hout]
    refine (or_iff_left ?_).symm
    rintro (⟨a, he, -⟩ | ⟨⟨draws, order, he⟩, -⟩)
    · exact hturn _ he
    · exact hdetect _ _ he
  obtain ⟨draws, order, he, -, ⟨n, hn, rfl⟩ | ⟨hno, rfl⟩⟩ |
    ⟨draws, order, he, ⟨n, -, rfl⟩ | rfl⟩ |
    ⟨id, subtask, loop, he, hsub, hloop, rfl⟩ | ⟨turn, loop, he, hown, hloop, rfl⟩ |
    ⟨id, he, -, rfl⟩ | ⟨he, rfl⟩ := h.kept.next_cases hs
  · cases he
    refine ⟨⟨hkept, h.sound, h.handler⟩, (or_iff_left ?_).symm⟩
    rintro (⟨a, he, -⟩ | ⟨-, hno⟩)
    · cases he
    · rw [hno n] at hn
      cases hn
  · cases he
    have hout : (d.stop .assertion).outcome ≠ none := by
      simp [stop, gather]
    exact ⟨⟨hkept, h.sound, fun _ => hout⟩,
      iff_of_true hout (Or.inr (Or.inr ⟨⟨draws, order, rfl⟩, hno⟩))⟩
  · cases he
    exact ⟨⟨hkept, h.sound, h.handler⟩, hsame (by simp) (by simp) rfl⟩
  · cases he
    exact ⟨h, hsame (by simp) (by simp) rfl⟩
  · cases he
    have hhonest : (subtask.turn id).Honest := by cases subtask <;> trivial
    have hne : ∀ packet, subtask.turn id ≠ .other (.receive packet) := by
      cases subtask <;> simp [Subtask.turn]
    obtain ⟨packet, he, -⟩ | ⟨-, hf⟩ := Loop.next_failed h.sound hhonest hloop
    · exact absurd he (hne packet)
    · refine ⟨⟨hkept, h.sound.next hhonest hloop, ?_⟩, hsame (by simp) (by simp) rfl⟩
      dsimp only
      rw [hf]
      exact h.handler
  · cases he
    have hturn : turn.Honest := hl
    have hsound := @Loop.Sound.next _ _ (turn, env) h.sound hturn hloop
    have hout : (({ d with loop } : Daemon).gather loop.worker.failed).outcome ≠ none ↔
        d.outcome ≠ none ∨ loop.worker.failed ≠ none := by
      simp only [gather]
      cases d.outcome <;> simp
    refine ⟨⟨hkept, hsound, fun hf => hout.mpr (Or.inr hf)⟩, hout.trans ?_⟩
    obtain ⟨packet, he, -, hf⟩ | ⟨hne, hf⟩ :=
      @Loop.next_failed _ _ (turn, env) h.sound hturn hloop
    · dsimp only at he
      subst he
      refine or_congr_right ?_
      rw [ne_eq, hf]
      constructor
      · intro hnot
        push Not at hnot
        obtain ⟨a, rfl, hlt⟩ := hnot
        exact Or.inl ⟨a, rfl, hlt⟩
      · rintro (⟨a, he, hlt⟩ | ⟨⟨draws, order, he⟩, -⟩) hall
        · cases he
          exact absurd (hall a rfl) (not_le.mpr hlt)
        · cases he
    · rw [hf]
      constructor
      · exact fun hold => Or.inl (hold.elim id h.handler)
      · rintro (hold | ⟨a, he, -⟩ | ⟨⟨draws, order, he⟩, -⟩)
        · exact Or.inl hold
        · cases he
          exact absurd rfl (hne _)
        · cases he
  · cases he
    exact ⟨⟨hkept, h.sound, h.handler⟩, hsame (by simp) (by simp) rfl⟩
  · cases he
    by_cases hout : d.outcome = none
    · rw [if_pos hout] at hkept hsame ⊢
      exact ⟨⟨hkept, h.sound, h.handler⟩, hsame (by simp) (by simp) rfl⟩
    · rw [if_neg hout] at hsame ⊢
      exact ⟨h, hsame (by simp) (by simp) rfl⟩

theorem ends_start (config : Config) (env : Env) : (start config env).Ends :=
  ⟨kept_start config env, Loop.sound_start config, fun h => absurd rfl h⟩

theorem Kept.next_detection (h : d.Kept) (hs : d.next l = some d') :
    d'.detection ≠ none ↔ d.detection ≠ none ∨ Lone d l := by
  have hsame : (∀ draws order, l.1 ≠ .detect draws order) → d'.detection = d.detection →
      (d'.detection ≠ none ↔ d.detection ≠ none ∨ Lone d l) := by
    intro hne heq
    rw [heq]
    refine (or_iff_left ?_).symm
    rintro ⟨⟨draws, order, he⟩, -⟩
    exact hne draws order he
  obtain ⟨draws, order, he, -, ⟨n, hn, rfl⟩ | ⟨hno, rfl⟩⟩ |
    ⟨draws, order, he, ⟨n, -, rfl⟩ | rfl⟩ | ⟨id, subtask, loop, he, -, -, rfl⟩ |
    ⟨turn, loop, he, -, -, rfl⟩ | ⟨id, he, -, rfl⟩ | ⟨he, rfl⟩ := h.next_cases hs
  · refine (or_iff_left ?_).symm
    rintro ⟨-, hno⟩
    rw [hno n] at hn
    cases hn
  · refine iff_of_true ?_ (Or.inr ⟨⟨draws, order, he⟩, hno⟩)
    simp [stop, gather]
  · exact hsame (by simp [he]) rfl
  · exact hsame (by simp [he]) rfl
  · exact hsame (by simp [he]) rfl
  · exact hsame (by simp [he]) rfl
  · exact hsame (by simp [he]) rfl
  · refine hsame (by simp [he]) ?_
    split <;> rfl

theorem Ends.run {ls : List (Event × Env)} (hls : ∀ l ∈ ls, l.1.Honest)
    (h : run Daemon.next (start config env) ls = some d) : d.Ends ∧
      (d.outcome ≠ none ↔
        Sometime Daemon.next (fun d l => AckAbove d l ∨ Lone d l) (start config env) ls) ∧
      (d.detection ≠ none ↔ Sometime Daemon.next Lone (start config env) ls) := by
  have hrun : (∀ l ∈ ls, l.1.Honest) → d.Ends ∧ (d.outcome ≠ none ↔
      Sometime Daemon.next (fun d l => AckAbove d l ∨ Lone d l) (start config env) ls) ∧
      (d.detection ≠ none ↔ Sometime Daemon.next Lone (start config env) ls) := by
    refine @run_induction _ _ Daemon.next _ (fun ls d => (∀ l ∈ ls, l.1.Honest) → d.Ends ∧
      (d.outcome ≠ none ↔
        Sometime Daemon.next (fun d l => AckAbove d l ∨ Lone d l) (start config env) ls) ∧
      (d.detection ≠ none ↔ Sometime Daemon.next Lone (start config env) ls))
      (fun _ => ⟨ends_start config env, by simp [Sometime, start], by simp [Sometime, start]⟩)
      (fun ls l d d' hd ih hs hls => ?_) _ _ h
    obtain ⟨hends, hout, hdet⟩ := ih fun k hk => hls k (List.mem_append_left _ hk)
    obtain ⟨hends', hout'⟩ := hends.next (hls l (List.mem_append_right _ List.mem_cons_self)) hs
    have hlast : ∀ P : Prop, P ↔ ∃ t', d.next l = some t' ∧ P := by
      intro P
      constructor
      · exact fun hP => ⟨d', hs, hP⟩
      · rintro ⟨-, -, hP⟩
        exact hP
    refine ⟨hends', ?_, ?_⟩
    · rw [hout', hout, sometime_concat hd]
      exact or_congr_right (hlast _)
    · rw [hends.kept.next_detection hs, hdet, sometime_concat hd]
      exact or_congr_right (hlast _)
  exact hrun hls

end Daemon

end Swim
