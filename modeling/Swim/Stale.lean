import Mathlib.Data.Finset.Max
import Swim.Incarnations
import Swim.Received

/-!
# Swim.Stale

Gossip that is not newer than what a node holds: old gossip of a member about itself, which is
taken all the same, and gossip of others, which the table refuses and the timers do not.

* `step_calls` — a step of a worker does to its table what some calls of `Members` do, so that
  the tables of workers are `Members.Reachable`; the calls concern the subject of the step.
* `newest_iff` — after any gossip of one incarnation of a member about itself, in any order, its
  metadata are those of the packet with the greatest clock exactly if the last packet has them.
* `stale_iff`  — stale gossip of another member has no effect exactly if the pending timer of the
  member is what its status asks for.
-/

namespace Swim

open Transition

theorem Member.Alike.trans {m m' m'' : Member} (h : m.Alike m') (h' : m'.Alike m'') :
    m.Alike m'' := by
  obtain ⟨_, _, rfl⟩ := h
  obtain ⟨_, _, rfl⟩ := h'
  exact ⟨_, _, rfl⟩

namespace Member

def overwritten (m : Member) (μ : Option Metadata) : Option Metadata :=
  if m.pendingClock = none then μ.or m.metadataDict else m.metadataDict

/-- `m'` is what `m` became when `μ` was the latest metadata from the member itself. -/
structure Follows (m m' : Member) (μ : Option Metadata) : Prop where
  isLocal : m'.isLocal = m.isLocal
  pending : m'.pendingClock = none ↔ m.pendingClock = none
  metadata : m'.metadataDict = m.overwritten μ

theorem Alike.follows {m m' : Member} (h : m.Alike m') : m.Follows m' none := by
  obtain ⟨_, _, rfl⟩ := h
  refine ⟨rfl, Iff.rfl, ?_⟩
  rw [overwritten, Option.none_or, ite_self]

theorem Follows.trans {m m' m'' : Member} {μ ν : Option Metadata} (h : m.Follows m' μ)
    (h' : m'.Follows m'' ν) : m.Follows m'' (ν.or μ) := by
  refine ⟨h'.isLocal.trans h.isLocal, h'.pending.trans h.pending, ?_⟩
  rw [h'.metadata, overwritten, overwritten, h.metadata, overwritten]
  by_cases hp : m.pendingClock = none
  · rw [if_pos (h.pending.mpr hp), if_pos hp, if_pos hp, Option.or_assoc]
  · rw [if_neg (mt h.pending.mp hp), if_neg hp, if_neg hp]

end Member

def Packet.subject : Packet → Option Name
  | gossip g => some g.name
  | ping _ | pingReq _ _ | ack _ | gossipAck _ => none

namespace Members

variable {M M' : Members} {n : Name} {m : Member} {env : Env}

def Op.subject : Op → Option Name
  | .update name _ _ | .apply name _ _ _ _ => some name
  | .get _ _ | .ackGossip _ _ _ => none

theorem Op.map_change (op : Op) (nextClock : Int) :
    (op.change nextClock).map Prod.fst = op.subject := by cases op <;> rfl

theorem step_subject (h : M.Keyed) {l : Op × Env} (hs : M.step l = some M')
    (hm : M.members n = some m) (hn : l.1.subject ≠ some n) :
    ∃ m', M'.members n = some m' ∧ m.Alike m' := by
  obtain ⟨-, hkeeps⟩ | ⟨x, source, clock, status, metadata, hc, -, rfl⟩ := step_cases h hs
  · exact hkeeps.entry n m hm
  · rw [← l.1.map_change M.nextClock, hc] at hn
    refine ⟨m, ?_, _, _, rfl⟩
    rw [_update_of_ne fun heq => hn (congrArg some heq.symm)]
    exact hm

theorem run_subject {ls : List (Op × Env)} (h : M.Ordered) (hrun : run step M ls = some M')
    (hm : M.members n = some m) (hn : ∀ l ∈ ls, l.1.subject ≠ some n) :
    ∃ m', M'.members n = some m' ∧ m.Alike m' := by
  induction ls generalizing M m with
  | nil => cases hrun; exact ⟨m, hm, _, _, rfl⟩
  | cons l ls ih =>
    obtain ⟨M₁, h₁, hrest⟩ := Option.bind_eq_some_iff.mp hrun
    obtain ⟨m₁, hm₁, hfirst⟩ := step_subject h.keyed h₁ hm (hn l List.mem_cons_self)
    obtain ⟨m', hm', hlast⟩ := ih (h.step h₁) hrest hm₁ fun k hk => hn k (List.mem_cons_of_mem _ hk)
    exact ⟨m', hm', hfirst.trans hlast⟩

/-- **The handler's pass as calls**: of `get`, and of `apply` or `ack_gossip`. -/
theorem handled_calls {packet : Packet} (h : M.Keyed) :
    ∃ ops : List Op, (∀ op ∈ ops, ∀ k, op.subject = some k → packet.subject = some k) ∧
      run step M (ops.map fun op => (op, env)) = some (M.handled packet env).after := by
  cases packet with
  | ping source | ack source =>
    exact ⟨[.get source.name (some source.validity)], by simp [Op.subject], rfl⟩
  | pingReq source target =>
    exact ⟨[.get source.name (some source.validity), .get target none], by simp [Op.subject], rfl⟩
  | gossip g =>
    obtain ⟨-, -, hm, -, hsrc⟩ := @Keyed.looked M (.gossip g) g.name env h
    refine ⟨[.get g.source.name (some g.source.validity), .get g.name none,
      .apply g.name g.source.name g.clock g.status g.metadata],
      by simp [Op.subject, Packet.subject], ?_⟩
    rw [Packet.source_gossip] at hsrc
    show run step (M.looked (.gossip g) g.name env).1 [(.apply g.name _ _ _ _, env)] = _
    rw [run_singleton]
    simp only [step, hm, hsrc]
    rfl
  | gossipAck a =>
    obtain ⟨-, -, hm, -, hsrc⟩ := @Keyed.looked M (.gossipAck a) a.name env h
    refine ⟨[.get a.source.name (some a.source.validity), .get a.name none,
      .ackGossip a.name a.source.name a.clock], by simp [Op.subject], ?_⟩
    rw [Packet.source_gossipAck] at hsrc
    show run step (M.looked (.gossipAck a) a.name env).1 [(.ackGossip a.name _ _, env)] = _
    rw [run_singleton]
    simp only [step, hm, hsrc]
    rfl

theorem update_own (h : m.Tidy M.nextClock) (hl : m.isLocal = false) {clock : Int} {s : Status}
    {metadata : Option Metadata} (hs : s.settable = true) : ∃ m',
    (M._update m (some m) clock (some s) metadata env).after.members m.name = some m' ∧
      m.Follows m' metadata := by
  have hsettable : ∀ t ∈ some s, t.settable = true := by
    rintro t ⟨⟩
    exact hs
  rw [_update_eq h, if_pos hsettable]
  split
  · rename_i hp
    exact ⟨m, Function.update_self _ _ _, rfl, Iff.rfl, (if_neg hp).symm⟩
  · rename_i hp
    have hclean := h.clean (not_not.mp hp)
    have hacc : m.accepts (some m) clock = true := by simp [Member.accepts]
    refine ⟨m.applied (some m) clock M.nextClock (some s) metadata env.now, ?_,
      Member.applied_isLocal, iff_of_true (Member.applied_clean hclean).1 hclean.1, ?_⟩
    · rw [Py.after_ok, commit_members, Member.applied_name, Function.update_self]
    · rw [Member.applied_metadataDict h.dict (by rw [hl, Bool.false_and]) hacc, Member.overwritten,
        if_pos hclean.1]

/-- **Own gossip** is taken whatever its clock, unless a clock is pending. -/
theorem Ordered.handled_own (h : M.Ordered) {g : Gossip} (hm : M.members g.name = some m)
    (hl : m.isLocal = false) (hown : g.source.name = g.name) (hset : g.status.settable = true) :
    ∃ m', (M.handled (.gossip g) env).after.members g.name = some m' ∧ m.Follows m' g.metadata := by
  obtain ⟨-, -, hx, hname, hsrc⟩ := @Keyed.looked M (.gossip g) g.name env h.keyed
  have ho : (M.looked (.gossip g) g.name env).1.Ordered := h.looked g.name
  have hsame := @Keyed.looked_same M g.name env (.gossip g) h.keyed
  rw [found_of_some hm] at hsame
  have hfirst := hsame.alike.follows
  rw [Packet.source_gossip, hown, hx] at hsrc
  obtain ⟨m', hm', hlast⟩ := @update_own _ _ env (ho.tidy g.name _ hx)
    (hfirst.isLocal.trans hl) g.clock g.status g.metadata hset
  rw [hname] at hm'
  have hboth := hfirst.trans hlast
  rw [Option.or_none] at hboth
  refine ⟨m', ?_, hboth⟩
  simp only [Members.handled, Members.apply, ← Option.some.inj hsrc]
  exact hm'

end Members

namespace Worker

variable {w w' : Worker} {action : Action} {env : Env} {n : Name} {m : Member}

/-- The member a step is about: of gossip, a verdict, a timer or a call of the application. -/
def Action.subject : Action → Option Name
  | .receive packet => packet.subject
  | .verdict target _ | .expire target => some target
  | .update name _ _ => some name
  | .ping _ | .pingReq _ _ | .disseminate _ => none

/-- **A step as calls of `Members`**, about the subject of the step. -/
theorem step_calls (h : w.members.Keyed) (hs : w.step action env = some w') :
    ∃ ops : List Members.Op, (∀ op ∈ ops, ∀ k, op.subject = some k → action.subject = some k) ∧
      run Members.step w.members (ops.map fun op => (op, env)) = some w'.members := by
  obtain ⟨packet, rfl, hM⟩ | ⟨name, status, metadata, m, he, hm, hM⟩ | ⟨-, -, hM⟩ :=
    step_members h hs
  · obtain ⟨ops, hsubject, hrun⟩ := @Members.handled_calls w.members env packet h
    exact ⟨ops, hsubject, by rw [hM]; exact hrun⟩
  · refine ⟨[.update name status metadata], ?_, ?_⟩
    · cases action with
      | verdict | expire | update => cases he; simp [Members.Op.subject, Action.subject]
      | receive | ping | pingReq | disseminate => cases he
    · rw [List.map_singleton, run_singleton]
      simp only [Members.step, hm, hM]
      rfl
  · exact ⟨[], by simp, by rw [hM]; rfl⟩

theorem reachable_members {config : Config} {env₀ : Env} {hist : List (Action × Env)}
    (hw : run next (init config env₀) hist = some w) : w.members.Reachable := by
  refine (always_of_along (P := fun w : Worker => w.members.Reachable)
    (Members.reachable_init config env₀) (along_true _ hist) fun w l w' h _ hs => ?_).last hw
  obtain ⟨ops, -, hrun⟩ := step_calls h.ordered.keyed hs
  exact h.run (along_true _ _) hrun

theorem step_other (h : w.members.Ordered) (hs : w.step action env = some w')
    (hm : w.members.members n = some m) (hn : action.subject ≠ some n) :
    ∃ m', w'.members.members n = some m' ∧ m.Alike m' := by
  obtain ⟨ops, hsubject, hrun⟩ := step_calls h.keyed hs
  refine Members.run_subject h hrun hm fun l hl => ?_
  obtain ⟨op, hop, rfl⟩ := List.mem_map.mp hl
  exact fun heq => hn (hsubject op hop n heq)

/-! ## Own gossip -/

def ownGossip (s : Source) (clock : Int) (metadata : Metadata) : Gossip :=
  ⟨s, s.name, clock, .online, some metadata⟩

def Action.news (n : Name) : Action → Option Metadata
  | .receive (.gossip g) => if g.name = n then g.metadata else none
  | .receive _ | .ping _ | .pingReq _ _ | .verdict _ _ | .expire _ | .disseminate _
  | .update _ _ _ => none

theorem news_ownGossip (s : Source) (clock : Int) (metadata : Metadata) :
    Action.news s.name (.receive (.gossip (ownGossip s clock metadata))) = some metadata :=
  if_pos rfl

def lastNews (n : Name) (ls : List (Action × Env)) : Option Metadata :=
  (ls.filterMap fun l => l.1.news n).getLast?

theorem lastNews_cons (l : Action × Env) (ls : List (Action × Env)) :
    lastNews n (l :: ls) = (lastNews n ls).or (l.1.news n) := by
  rw [lastNews, List.filterMap_cons]
  cases l.1.news n with
  | none => rw [Option.or_none]; rfl
  | some μ =>
    rw [List.getLast?_cons, lastNews]
    cases (ls.filterMap fun l => l.1.news n).getLast? with
    | none => rfl
    | some ν => rfl

theorem news_of_subject {action : Action} (h : action.subject ≠ some n) : action.news n = none := by
  cases action with
  | receive packet =>
    cases packet with
    | gossip g => exact if_neg fun heq => h (congrArg some heq)
    | ping | pingReq | ack | gossipAck => rfl
  | ping | pingReq | verdict | expire | disseminate | update => rfl

theorem run_own {s : Source} {ls : List (Action × Env)} (h : w.members.Ordered)
    (hm : w.members.members s.name = some m) (hl : m.isLocal = false)
    (hls : ∀ l ∈ ls, l.1.subject = some s.name → ∃ clock metadata,
      l.1 = .receive (.gossip (ownGossip s clock metadata))) (hr : run next w ls = some w') :
    ∃ m', w'.members.members s.name = some m' ∧ m.Follows m' (lastNews s.name ls) := by
  induction ls generalizing w m with
  | nil =>
    cases hr
    exact ⟨m, hm, Member.Alike.follows ⟨_, _, rfl⟩⟩
  | cons l ls ih =>
    obtain ⟨w₁, h₁, hrest⟩ := Option.bind_eq_some_iff.mp hr
    have hstep : ∃ m₁, w₁.members.members s.name = some m₁ ∧ m.Follows m₁ (l.1.news s.name) := by
      by_cases hsubject : l.1.subject = some s.name
      · obtain ⟨clock, metadata, hl'⟩ := hls l List.mem_cons_self hsubject
        obtain ⟨packet, hpacket, hM⟩ | ⟨_, _, _, _, he, -⟩ | ⟨-, hno, -⟩ :=
          step_members h.keyed h₁
        · cases hl'.symm.trans hpacket
          rw [hM, hl', news_ownGossip]
          exact h.handled_own hm hl rfl rfl
        · rw [hl'] at he; cases he
        · exact absurd hl' (hno _)
      · obtain ⟨m₁, hm₁, halike⟩ := step_other h h₁ hm hsubject
        rw [news_of_subject hsubject]
        exact ⟨m₁, hm₁, halike.follows⟩
    obtain ⟨m₁, hm₁, hfirst⟩ := hstep
    obtain ⟨m', hm', hlast⟩ := ih (step_ordered h h₁) hm₁ (hfirst.isLocal.trans hl)
      (fun k hk => hls k (List.mem_cons_of_mem _ hk)) hrest
    rw [lastNews_cons]
    exact ⟨m', hm', hfirst.trans hlast⟩

theorem lastNews_isSome {ls : List (Action × Env)} {l : Action × Env} (h : l ∈ ls)
    (hl : (l.1.news n).isSome = true) : (lastNews n ls).isSome = true := by
  induction ls with
  | nil => cases h
  | cons k ls ih =>
    rw [lastNews_cons, Option.isSome_or, Bool.or_eq_true]
    rcases List.mem_cons.mp h with rfl | h
    · exact Or.inr hl
    · exact Or.inl (ih h)

/-- **A member's own gossip in any order** leaves the metadata of the packet with the greatest
clock exactly if the last packet has the same metadata; with a clock pending, none is taken. -/
theorem newest_iff (config : Config) (env₀ : Env) (hist : List (Action × Env)) (w : Worker)
    (hw : run next (init config env₀) hist = some w) (s : Source) (m : Member)
    (hm : w.members.members s.name = some m) (hl : m.isLocal = false) (clocks : Finset Int)
    (hne : clocks.Nonempty) (data : Int → Metadata) (ls : List (Action × Env)) (w' : Worker)
    (hr : run next w ls = some w')
    (hls : ∀ l ∈ ls, l.1.subject = some s.name →
      ∃ c ∈ clocks, l.1 = .receive (.gossip (ownGossip s c (data c))))
    (hall : ∀ c ∈ clocks, ∃ env, (.receive (.gossip (ownGossip s c (data c))), env) ∈ ls) :
    ∃ m', w'.members.members s.name = some m' ∧
      (m'.metadataDict = some (data (clocks.max' hne)) ↔
        (m.pendingClock = none → lastNews s.name ls = some (data (clocks.max' hne))) ∧
          (m.pendingClock ≠ none → m.metadataDict = some (data (clocks.max' hne)))) := by
  obtain ⟨m', hm', hfollows⟩ := run_own (run_ordered hw) hm hl (fun l hmem hsubject => by
    obtain ⟨c, -, heq⟩ := hls l hmem hsubject
    exact ⟨c, data c, heq⟩) hr
  refine ⟨m', hm', ?_⟩
  obtain ⟨env, hmem⟩ := hall _ (clocks.max'_mem hne)
  have hsome : (lastNews s.name ls).isSome = true :=
    lastNews_isSome hmem (by rw [news_ownGossip]; rfl)
  obtain ⟨μ, hμ⟩ := Option.isSome_iff_exists.mp hsome
  rw [hfollows.metadata, Member.overwritten, hμ, Option.some_or]
  by_cases hp : m.pendingClock = none
  · rw [if_pos hp]
    exact ⟨fun heq => ⟨fun _ => heq, fun hno => absurd hp hno⟩, fun hall => hall.1 hp⟩
  · rw [if_neg hp]
    exact ⟨fun heq => ⟨fun hno => absurd hno hp, fun _ => heq⟩, fun hall => hall.2 hp⟩

/-- `b` chose another colour with each clock. -/
def repainted (clock : Int) : Metadata := Cluster.colour (UInt8.ofNat clock.toNat)

/-- The packet with clock 2 arrives before the one with clock 1. -/
def swapped : List (Action × Env) :=
  [(.receive (.gossip (ownGossip ⟨"b", []⟩ 2 (repainted 2))), still),
    (.receive (.gossip (ownGossip ⟨"b", []⟩ 1 (repainted 1))), still)]

theorem swapped_own : ∃ m w' m', (init nodeA still).members.members "b" = some m ∧
    m.isLocal = false ∧ m.clock = 0 ∧ run next (init nodeA still) swapped = some w' ∧
      w'.members.members "b" = some m' ∧ m'.metadataDict = some (repainted 1) := by
  have hfirst : ((init nodeA still).members.members "b").map (fun m => (m.isLocal, m.clock)) =
      some (false, 0) := by decide +kernel
  have hlast : ((run next (init nodeA still) swapped).bind fun w' =>
      (w'.members.members "b").map Member.metadataDict) = some (some (repainted 1)) := by
    decide +kernel
  obtain ⟨m, hm, heq⟩ := Option.map_eq_some_iff.mp hfirst
  obtain ⟨hl, hclock⟩ := Prod.mk.inj heq
  obtain ⟨w', hw', hlast⟩ := Option.bind_eq_some_iff.mp hlast
  obtain ⟨m', hm', hdata⟩ := Option.map_eq_some_iff.mp hlast
  exact ⟨m, w', m', hm, hl, hclock, hw', hm', hdata⟩

theorem swapped_only : ∀ l ∈ swapped, l.1.subject = some "b" → ∃ c ∈ ({1, 2} : Finset Int),
    l.1 = .receive (.gossip (ownGossip ⟨"b", []⟩ c (repainted c))) := by
  intro l hl _
  rcases List.mem_pair.mp hl with rfl | rfl
  · exact ⟨2, by decide, rfl⟩
  · exact ⟨1, by decide, rfl⟩

theorem swapped_all : ∀ c ∈ ({1, 2} : Finset Int), ∃ env,
    (.receive (.gossip (ownGossip ⟨"b", []⟩ c (repainted c))), env) ∈ swapped := by
  intro c hc
  rcases Finset.mem_insert.mp hc with rfl | hc
  · exact ⟨still, List.mem_cons_of_mem _ List.mem_cons_self⟩
  · rw [Finset.mem_singleton.mp hc]
    exact ⟨still, List.mem_cons_self⟩

theorem newest_iff_swapped : ∃ m w' m', (init nodeA still).members.members "b" = some m ∧
    run next (init nodeA still) swapped = some w' ∧ w'.members.members "b" = some m' ∧
      (m'.metadataDict = some (repainted (({1, 2} : Finset Int).max' (by decide))) ↔
        (m.pendingClock = none → lastNews "b" swapped =
          some (repainted (({1, 2} : Finset Int).max' (by decide)))) ∧
        (m.pendingClock ≠ none → m.metadataDict =
          some (repainted (({1, 2} : Finset Int).max' (by decide))))) := by
  obtain ⟨m, w', _, hm, hl, -, hr, -, -⟩ := swapped_own
  obtain ⟨m', hm', hiff⟩ := newest_iff nodeA still [] _ rfl ⟨"b", []⟩ m hm hl {1, 2} (by decide)
    repainted swapped w' hr swapped_only swapped_all
  exact ⟨m, w', m', hm, hr, hm', hiff⟩

theorem not_newest : ¬ ∀ (config : Config) (env₀ : Env) (hist : List (Action × Env)) (w : Worker),
    run next (init config env₀) hist = some w → ∀ (s : Source) (m : Member),
      w.members.members s.name = some m → m.isLocal = false → m.clock = 0 →
      ∀ (clocks : Finset Int) (hne : clocks.Nonempty) (data : Int → Metadata)
        (ls : List (Action × Env)) (w' : Worker), run next w ls = some w' →
      (∀ l ∈ ls, l.1.subject = some s.name →
        ∃ c ∈ clocks, l.1 = .receive (.gossip (ownGossip s c (data c)))) →
      (∀ c ∈ clocks, ∃ env, (.receive (.gossip (ownGossip s c (data c))), env) ∈ ls) →
      ∀ m', w'.members.members s.name = some m' →
        m'.metadataDict = some (data (clocks.max' hne)) := by
  intro h
  obtain ⟨m, w', m', hm, hl, hclock, hr, hm', hdata⟩ := swapped_own
  have heq := h nodeA still [] _ rfl ⟨"b", []⟩ m hm hl hclock {1, 2} (by decide)
    repainted swapped w' hr swapped_only swapped_all m' hm'
  rw [hdata] at heq
  exact absurd heq (by decide +kernel)

/-! ## Gossip of others -/

/-- Handling the status leaves the timers as they are exactly if the pending one is what the
status asks for. -/
theorem handleStatus_self {target : Name} {status : Status} :
    w.handleStatus target status = w ↔ (status = .suspect ↔ target ∈ w.suspect) := by
  have hsuspect : w.handleStatus target status = w ↔
      (if status = .suspect then insert target w.suspect else w.suspect.erase target) =
        w.suspect := by
    rw [handleStatus_eq]
    exact ⟨congrArg suspect, fun heq => by rw [heq]⟩
  rw [hsuspect]
  split
  · rename_i hs
    rw [Finset.insert_eq_self]
    simp [hs]
  · rename_i hs
    rw [Finset.erase_eq_self]
    simp [hs]

theorem withMembers_self {v : Worker} (hv : v.members = w.members) {r : Py Members} :
    v.withMembers r = .ok w ↔ r = .ok w.members ∧ v = w := by
  cases r with
  | error r => exact iff_of_false (by rintro ⟨⟩) (by rintro ⟨⟨⟩, -⟩)
  | ok M =>
    rw [withMembers, Py.inside_ok, Except.ok.injEq, Except.ok.injEq]
    constructor
    · rintro rfl
      dsimp only at hv
      subst hv
      exact ⟨rfl, rfl⟩
    · rintro ⟨rfl, rfl⟩
      rfl

/-- **Stale gossip has no effect** exactly if nothing is pending, the status is settable, and the
pending timer of the member is what the status asks for. -/
theorem stale_iff (w : Worker) (hw : w.members.Reachable) (source member : Member) (g : Gossip)
    (env : Env) (hsource : w.members.members g.source.name = some source)
    (hmember : w.members.members g.name = some member) (hother : g.name ≠ g.source.name)
    (hstale : g.clock ≤ member.clock) :
    w.applyGossip source member g env = .ok w ↔
      member.pendingClock = none ∧ g.status.settable = true ∧
        (g.status = .suspect ↔ g.name ∈ w.suspect) := by
  have hkeyed := hw.ordered.keyed
  have htidy := hw.ordered.tidy _ member hmember
  have hname : member.name = g.name := hkeyed.name _ _ hmember
  have hrefused : member.accepts (some source) g.clock = false := by
    rw [Member.accepts, Bool.or_eq_false_iff, decide_eq_false_iff_not, beq_eq_false_iff_ne]
    refine ⟨not_lt.mpr hstale, fun heq => hother ?_⟩
    rw [← hname, ← hkeyed.name _ _ hsource, ← Option.some.inj heq]
  rw [applyGossip, hname]
  -- the table is not touched by a call that returns
  have hself : w.members._update member (some source) g.clock (some g.status) g.metadata env =
      .ok w.members ↔ member.pendingClock = none ∧ g.status.settable = true := by
    rw [Members._update_returns htidy, Member.applied_of_not_accepts hrefused, hrefused,
      Bool.false_and, Members.commit_false_self (by rw [hname]; exact hmember) htidy.below]
    simp
  have hmembers : (w.handleStatus g.name g.status).members = w.members := by
    rw [handleStatus_eq]
  rw [withMembers_self hmembers, handleStatus_self, hmembers, Members.apply]
  exact (and_congr_left' hself).trans and_assoc

/-- `b` is online with clock 5, and `c` is known. -/
def revived : List (Action × Env) :=
  [(.receive (.gossip ⟨⟨"b", []⟩, "b", 5, .online, some ∅⟩), still),
    (.receive (.ping ⟨"c", []⟩), still)]

/-- `c` still has the suspicion `b` refuted. -/
def late : Gossip := ⟨⟨"c", []⟩, "b", 3, .suspect, some ∅⟩

theorem revived_late : ∃ w source member, run next (init nodeA still) revived = some w ∧
    w.members.members "c" = some source ∧ w.members.members "b" = some member ∧
      member.clock = 5 ∧ w.suspect = ∅ ∧
      (w.applyGossip source member late still).after.suspect = {"b"} := by
  have hrun : ((run next (init nodeA still) revived).bind fun w =>
      (w.members.members "c").bind fun source => (w.members.members "b").map fun member =>
        (member.clock, w.suspect, (w.applyGossip source member late still).after.suspect)) =
      some (5, ∅, {"b"}) := by decide +kernel
  obtain ⟨w, hw, hrun⟩ := Option.bind_eq_some_iff.mp hrun
  obtain ⟨source, hsource, hrun⟩ := Option.bind_eq_some_iff.mp hrun
  obtain ⟨member, hmember, heq⟩ := Option.map_eq_some_iff.mp hrun
  obtain ⟨hclock, hsuspect, hafter⟩ : member.clock = 5 ∧ w.suspect = ∅ ∧
      (w.applyGossip source member late still).after.suspect = {"b"} := by
    simpa only [Prod.mk.injEq] using heq
  exact ⟨w, source, member, hw, hsource, hmember, hclock, hsuspect, hafter⟩

theorem stale_iff_late : ∃ w source member, run next (init nodeA still) revived = some w ∧
    w.members.members late.source.name = some source ∧
    w.members.members late.name = some member ∧
    (w.applyGossip source member late still = .ok w ↔
      member.pendingClock = none ∧ late.status.settable = true ∧
        (late.status = .suspect ↔ late.name ∈ w.suspect)) := by
  obtain ⟨w, source, member, hw, hsource, hmember, hclock, -, -⟩ := revived_late
  exact ⟨w, source, member, hw, hsource, hmember, stale_iff w (reachable_members hw) source member
    late still hsource hmember (by decide) (by rw [hclock]; decide)⟩

theorem not_stale : ¬ ∀ (config : Config) (env₀ : Env) (hist : List (Action × Env)) (w : Worker),
    run next (init config env₀) hist = some w → ∀ (source member : Member) (g : Gossip)
      (env : Env), w.members.members g.source.name = some source →
      w.members.members g.name = some member → g.name ≠ g.source.name → g.clock ≤ member.clock →
      w.applyGossip source member g env = .ok w := by
  intro h
  obtain ⟨w, source, member, hw, hsource, hmember, hclock, hsuspect, hafter⟩ := revived_late
  have hok := h nodeA still revived w hw source member late still hsource hmember (by decide)
    (by rw [hclock]; decide)
  rw [hok, Py.after_ok, hsuspect] at hafter
  exact absurd hafter (by decide)

end Worker

end Swim
