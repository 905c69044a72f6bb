import Swim.Daemon
import Swim.Names
import Swim.Origins

/-!
# Swim.Announced

What the listener of a table is told over a run: of every member that does not look as before.

* `Announces`           — from one table to a later one, the names the listener is told, and what
  became of the other members.
* `Ordered.announces`   — one call, whether it returns or raises.
* `Kept.announces`      — one event of `Worker.run` and its tasks.
* `Loop.Informed`       — the names and the metadata a process has heard; `Ends.informed` says that
  an event adds only what it brings.
-/

namespace Swim

open Transition

/-- As `get` creates it, and nothing else has been heard of it. -/
def Member.Blank (m : Member) : Prop := m.status = .offline ∧ m.metadataDict = none

namespace Members

/-- From `M` to `M'` the listener is told `new`. A member it is not told of looks as before, or has
been created. -/
structure Announces (M M' : Members) (new : List Name) : Prop where
  listener : M'.listener = M.listener ++ new
  localName : M'.localName = M.localName
  stays : ∀ n m, M.members n = some m → ∃ m', M'.members n = some m' ∧ m'.isLocal = m.isLocal
  known : ∀ n ∈ new, (M'.members n).isSome = true
  others : ∀ n m', M'.members n = some m' → n ∈ new ∨
    (∃ m, M.members n = some m ∧ ¬ m.Differs m') ∨ M.members n = none ∧ m'.Blank

variable {M M' M'' : Members} {m m' : Member} {n : Name} {new new' : List Name} {env : Env}

theorem Announces.refl (M : Members) : M.Announces M [] where
  listener := (List.append_nil _).symm
  localName := rfl
  stays := fun _ m hm => ⟨m, hm, rfl⟩
  known := by simp
  others := fun _ m hm => Or.inr (Or.inl ⟨m, hm, by simp [Member.Differs]⟩)

theorem Announces.trans (h : M.Announces M' new) (h' : M'.Announces M'' new') :
    M.Announces M'' (new ++ new') where
  listener := by rw [h'.listener, h.listener, List.append_assoc]
  localName := h'.localName.trans h.localName
  stays := fun n m hm => by
    obtain ⟨m', hm', hl⟩ := h.stays n m hm
    obtain ⟨m'', hm'', hl'⟩ := h'.stays n m' hm'
    exact ⟨m'', hm'', hl'.trans hl⟩
  known := fun n hn => by
    obtain hn | hn := List.mem_append.mp hn
    · obtain ⟨m', hm'⟩ := Option.isSome_iff_exists.mp (h.known n hn)
      obtain ⟨m'', hm'', -⟩ := h'.stays n m' hm'
      rw [hm'']
      rfl
    · exact h'.known n hn
  others := fun n m'' hm'' => by
    obtain hn | ⟨m', hm', hsame⟩ | ⟨hnone, hblank⟩ := h'.others n m'' hm''
    · exact Or.inl (List.mem_append_right _ hn)
    · obtain ⟨hst, hmd⟩ := not_or.mp hsame
      rw [not_not] at hst hmd
      obtain hn | ⟨m, hm, hsame⟩ | ⟨hnone, hblank⟩ := h.others n m' hm'
      · exact Or.inl (List.mem_append_left _ hn)
      · refine Or.inr (Or.inl ⟨m, hm, ?_⟩)
        rw [Member.Differs, hst, hmd]
        exact hsame
      · exact Or.inr (Or.inr ⟨hnone, hst.trans hblank.1, hmd.trans hblank.2⟩)
    · refine Or.inr (Or.inr ⟨?_, hblank⟩)
      by_contra hsome
      obtain ⟨m, hm⟩ := Option.ne_none_iff_exists'.mp hsome
      obtain ⟨m', hm', -⟩ := h.stays n m hm
      cases hnone.symm.trans hm'

theorem Announces.write (hm : M.members m.name = some m)
    (hmem : M'.members = Function.update M.members m.name (some m')) (hl : m'.isLocal = m.isLocal)
    (hname : M'.localName = M.localName) (hlistener : M'.listener = M.listener ++ new)
    (hnew : new = [m.name] ∨ new = [] ∧ ¬ m.Differs m') : M.Announces M' new where
  listener := hlistener
  localName := hname
  stays := fun n x hx => by
    by_cases hn : n = m.name
    · subst hn
      cases hm.symm.trans hx
      exact ⟨m', by rw [hmem, Function.update_self], hl⟩
    · exact ⟨x, by rw [hmem, Function.update_of_ne hn, hx], rfl⟩
  known := fun n hn => by
    obtain rfl | ⟨rfl, -⟩ := hnew
    · rw [List.mem_singleton.mp hn, hmem, Function.update_self]
      rfl
    · cases hn
  others := fun n x hx => by
    by_cases hn : n = m.name
    · subst hn
      rw [hmem, Function.update_self] at hx
      cases hx
      obtain rfl | ⟨-, hsame⟩ := hnew
      · exact Or.inl List.mem_cons_self
      · exact Or.inr (Or.inl ⟨m, hm, hsame⟩)
    · rw [hmem, Function.update_of_ne hn] at hx
      exact Or.inr (Or.inl ⟨x, hx, by simp [Member.Differs]⟩)

theorem Keeps.announces (h : M.Keeps M') (hname : M'.localName = M.localName)
    (hlistener : M'.listener = M.listener) : M.Announces M' [] where
  listener := hlistener.trans (List.append_nil _).symm
  localName := hname
  stays := fun n m hm => by
    obtain ⟨m', hm', _, _, rfl⟩ := h.entry n m hm
    exact ⟨_, hm', rfl⟩
  known := by simp
  others := fun n m' hm' => by
    obtain ⟨m, hm, _, _, rfl⟩ | ⟨hnone, env, _, _, rfl⟩ := h.origin n m' hm'
    · exact Or.inr (Or.inl ⟨m, hm, by simp [Member.Differs]⟩)
    · exact Or.inr (Or.inr ⟨hnone, rfl, rfl⟩)

theorem Ordered.announces_update (h : M.Ordered) (hm : M.members m.name = some m)
    (source : Option Member) (clock : Int) (status : Option Status) (metadata : Option Metadata)
    (env : Env) : ∃ new, M.Announces (M._update m source clock status metadata env).after new := by
  have htidy := h.tidy _ m hm
  have hpend : ∀ pc, M.Announces (M.put (m.pend pc none none)) [] := fun pc =>
    .write hm rfl rfl rfl (List.append_nil _).symm
      (Or.inr ⟨rfl, by simp [Member.Differs, Member.pend]⟩)
  rw [_update_eq htidy]
  split
  · exact ⟨[], .write hm rfl rfl rfl (List.append_nil _).symm
      (Or.inr ⟨rfl, by simp [Member.Differs]⟩)⟩
  · split
    · let m' := m.applied source clock M.nextClock status metadata env.now
      have hmem : ∀ updated, (M.commit updated m').members =
          Function.update M.members m.name (some m') := fun updated => by
        rw [commit_members, Member.applied_name]
      cases hc : m.accepts source clock && m.changes status metadata with
      | true =>
        refine ⟨[m.name], .write hm (hmem true) Member.applied_isLocal commit_localName ?_
          (Or.inl rfl)⟩
        rw [Py.after_ok, commit_listener, if_pos rfl, Member.applied_name]
      | false =>
        refine ⟨[], .write hm (hmem false) Member.applied_isLocal commit_localName ?_
          (Or.inr ⟨rfl, ?_⟩)⟩
        · rw [Py.after_ok, commit_listener, if_neg Bool.false_ne_true, List.append_nil]
        · rw [Member.differs_applied htidy.dict]
          rintro ⟨ha, hch, -⟩
          rw [ha, hch] at hc
          cases hc
    · exact ⟨[], hpend _⟩

/-- **One call.** -/
theorem Ordered.announces (h : M.Ordered) {l : Op × Env} (hs : M.step l = some M') :
    ∃ new, M.Announces M' new := by
  obtain ⟨name, validity, rfl⟩ | ⟨m, source, clock, status, metadata, hm, rfl⟩ |
    ⟨member, source, clock, hsource, rfl⟩ := step_inv h.keyed hs
  · exact ⟨[], h.keyed.looks_get.keeps.announces get_localName get_listener⟩
  · exact h.announces_update hm source clock status metadata l.2
  · have hsame : (M.ackGossip member source clock).after.localName = M.localName ∧
        (M.ackGossip member source clock).after.listener = M.listener := by
      by_cases hc : clock ≤ M.nextClock
      · rw [ackGossip_ok hc]
        exact ⟨rfl, rfl⟩
      · rw [ackGossip_error hc]
        exact ⟨rfl, rfl⟩
    exact ⟨[], (keeps_ackGossip hsource).announces hsame.1 hsame.2⟩

theorem Ordered.announces_run (h : M.Ordered) {ls : List (Op × Env)}
    (hr : run Members.step M ls = some M') : ∃ new, M.Announces M' new := by
  induction ls generalizing M with
  | nil =>
    cases hr
    exact ⟨[], .refl _⟩
  | cons l ls ih =>
    obtain ⟨M₁, hs, hr⟩ := Option.bind_eq_some_iff.mp hr
    obtain ⟨new, h₁⟩ := h.announces hs
    obtain ⟨new', h₂⟩ := ih (h.step hs) hr
    exact ⟨new ++ new', h₁.trans h₂⟩

end Members

theorem Loop.next_announces {L L' : Loop} {l : Turn × Env} (h : L.worker.members.Ordered)
    (hs : L.next l = some L') : ∃ new, L.worker.members.Announces L'.worker.members new := by
  obtain ⟨ops, hrun⟩ := next_calls h.keyed hs
  exact h.announces_run hrun

/-! ## What is heard -/

variable {P : Name → Prop} {Q : Metadata → Prop}

/-- The packet tells names in `P`, and metadata in `Q`. -/
structure Packet.Tells (P : Name → Prop) (Q : Metadata → Prop) (packet : Packet) : Prop where
  names : ∀ n ∈ packet.names, P n
  metadata : ∀ g μ, packet = .gossip g → g.metadata = some μ → Q μ

/-- The packets tell no other names and metadata, and the application sets no other metadata. -/
def Turn.Brings (P : Name → Prop) (Q : Metadata → Prop) : Turn → Prop
  | other (.receive packet) => packet.Tells P Q
  | other (.update _ _ newMetadata) => ∀ μ ∈ newMetadata, Q μ
  | _ => True

namespace Loop

/-- The names in the table are in `P`, and the metadata of its members in `Q`. -/
structure Informed (P : Name → Prop) (Q : Metadata → Prop) (L : Loop) : Prop where
  within : L.Within P
  data : ∀ n μ, L.worker.members.dataOf n = some μ → Q μ

variable {L L' : Loop} {l : Turn × Env}

theorem Makes.sets {turn : Turn} {action : Worker.Action} (h : L.Makes turn action)
    (ht : turn.Brings P Q) {n : Name} {μ : Metadata} (hset : action.sets n = some μ) : Q μ := by
  cases turn with
  | check =>
    cases h
    cases hset
  | wake =>
    obtain ⟨check, online, -, rfl, -⟩ := h
    cases hset
  | send =>
    obtain ⟨check, -, rfl⟩ := h
    cases hset
  | other own =>
    cases h
    cases action with
    | update name status newMetadata =>
      obtain ⟨-, hset⟩ := Option.ite_none_right_eq_some.mp hset
      exact ht μ hset
    | receive | ping | pingReq | verdict | expire | disseminate => cases hset

theorem Makes.receive {turn : Turn} {packet : Packet} (h : L.Makes turn (.receive packet)) :
    turn = .other (.receive packet) := by
  cases turn with
  | check => cases h
  | wake =>
    obtain ⟨check, online, -, he, -⟩ := h
    cases he
  | send =>
    obtain ⟨check, -, he⟩ := h
    cases he
  | other own =>
    cases h
    rfl

/-- **A turn** adds what it brings. -/
theorem Informed.next (h : L.Informed P Q) (hL : L.Sound) (hd : L.worker.members.Drawn)
    (hl : l.1.Honest) (hb : l.1.Brings P Q) (hs : L.next l = some L') : L'.Informed P Q := by
  have htold : ∀ packet, l.1 = .other (.receive packet) → packet.Tells P Q := by
    intro packet he
    rw [he] at hb
    exact hb
  refine ⟨(next_within hL hd hl h.within (fun packet he => (htold packet he).names) hs).1, ?_⟩
  intro n μ hμ
  obtain heq | ⟨action, hmakes, hstep⟩ := next_makes hL hs
  · have hmem : L'.worker.forget.members = L.worker.forget.members := congrArg Worker.members heq
    exact h.data n μ (hmem ▸ hμ)
  · obtain hown | ⟨g, rfl, -, -, hgossip⟩ :=
      Worker.step_dataOf (w := L.worker.forget) hL.wf (hmakes.honest hl) hstep n
    · have hor : (action.sets n).or (L.worker.members.dataOf n) = some μ := hown.symm.trans hμ
      obtain hset | ⟨-, hold⟩ := Option.or_eq_some_iff.mp hor
      · exact hmakes.sets hb hset
      · exact h.data n μ hold
    · exact (htold _ hmakes.receive).metadata g μ rfl (hgossip.symm.trans hμ)

end Loop

namespace Daemon

variable {d d' : Daemon} {l : Event × Env}

/-- **One event** of `Worker.run` and its tasks. -/
theorem Kept.announces (h : d.Kept) (hs : d.next l = some d') :
    ∃ new, d.loop.worker.members.Announces d'.loop.worker.members new := by
  have ho := h.drawn.stocked.ordered
  obtain ⟨_, _, -, -, ⟨_, -, rfl⟩ | ⟨-, rfl⟩⟩ | ⟨_, _, -, ⟨_, -, rfl⟩ | rfl⟩ |
    ⟨id, subtask, loop, -, -, hloop, rfl⟩ | ⟨turn, loop, -, -, hloop, rfl⟩ | ⟨_, -, -, rfl⟩ |
    ⟨-, rfl⟩ := h.next_cases hs
  · exact ⟨[], .refl _⟩
  · exact ⟨[], .refl _⟩
  · exact ⟨[], .refl _⟩
  · exact ⟨[], .refl _⟩
  · exact Loop.next_announces ho hloop
  · exact Loop.next_announces ho hloop
  · exact ⟨[], .refl _⟩
  · refine ⟨[], ?_⟩
    split <;> exact .refl _

/-- The packets tell no other names and metadata, and the application sets no other metadata. -/
def Event.Brings (P : Name → Prop) (Q : Metadata → Prop) : Event → Prop
  | turn t => t.Brings P Q
  | detect _ _ | spread _ _ | begin _ | discard _ | exit => True

theorem Ends.informed (h : d.Ends) (hinf : d.loop.Informed P Q) (hl : l.1.Honest)
    (hb : l.1.Brings P Q) (hs : d.next l = some d') : d'.loop.Informed P Q := by
  obtain ⟨_, _, -, -, ⟨_, -, rfl⟩ | ⟨-, rfl⟩⟩ | ⟨_, _, -, ⟨_, -, rfl⟩ | rfl⟩ |
    ⟨id, subtask, loop, -, -, hloop, rfl⟩ | ⟨turn, loop, he, -, hloop, rfl⟩ | ⟨_, -, -, rfl⟩ |
    ⟨-, rfl⟩ := h.kept.next_cases hs
  · exact hinf
  · exact hinf
  · exact hinf
  · exact hinf
  · refine hinf.next h.sound h.kept.drawn ?_ ?_ hloop
    · cases subtask <;> trivial
    · cases subtask <;> trivial
  · rw [he] at hl hb
    exact @Loop.Informed.next _ _ _ _ (turn, l.2) hinf h.sound h.kept.drawn hl hb hloop
  · exact hinf
  · split <;> exact hinf

end Daemon

end Swim
