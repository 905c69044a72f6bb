import Swim.Progress

/-!
# Swim.Draws

What `Members.find` can return when it is asked for one member, as both loops of a running worker
do.

The draws of most shuffles go wrong after removals, but no element is ever removed from the shuffle
of `ALL`, which every status overlaps. So a draw of any member is exact, and a draw by status
returns some other member, if a stale one.

* `Drawn`        — the invariant of the table, `Drawn.step` and `drawn_init`.
* `find_one_iff` — the outcomes of `find(1, status=...)`.
* `find_any_iff` — the outcomes of `find(1)`.
-/

namespace Swim

open Transition

namespace WeakShuffle

theorem Sized.choice {s : WeakShuffle Name} (h : s.Sized) (hs : s.iter ≠ ∅) (draw : Nat) :
    ∃ n ∈ s.drawable, s.choice draw = .ok n := by
  have hpos : 0 < s.values.length := by
    rw [h.length, Finset.card_pos]
    exact Finset.nonempty_iff_ne_empty.mpr hs
  have hlt := Nat.mod_lt draw hpos
  have hslot := List.getElem?_eq_getElem hlt
  obtain ⟨n, hn⟩ := h.live _ (List.getElem_mem hlt)
  have hchoice : s.choice draw = .ok n := by simp only [WeakShuffle.choice, hslot, hn]
  exact ⟨n, mem_drawable.mpr ⟨draw, hchoice⟩, hchoice⟩

theorem Sized.drawable_eq_empty {s : WeakShuffle Name} (h : s.Sized) (hs : s.iter = ∅) :
    s.drawable = ∅ := by
  have hnil : s.values = [] := by
    rw [← List.length_eq_zero_iff, h.length, hs, Finset.card_empty]
  rw [drawable, hnil]
  rfl

end WeakShuffle

namespace Members

variable {M M' : Members} {l : Op × Env} {n : Name} {t : Status}

/-- A shelf is left, or a non-local member is put on it or taken off it, as its status says. -/
def Shelves (M M' : Members) (t : Status) : Prop :=
  M'.statuses t = M.statuses t ∨ ∃ m, M'.members m.name = some m ∧ m.isLocal = false ∧
    M'.statuses t = if m.status.overlaps t then (M.statuses t).add m.name
      else (M.statuses t).discard m.name

theorem step_shelves (h : M.Keyed) (hs : M.step l = some M') (t : Status) : M.Shelves M' t := by
  obtain ⟨name, validity, rfl⟩ | ⟨m, source, clock, status, metadata, -, rfl⟩ |
    ⟨member, source, clock, -, rfl⟩ := step_inv h hs
  · rw [Shelves, get_statuses]
    cases hm : M.members name with
    | some m => exact Or.inl rfl
    | none =>
      obtain ⟨v, known, hgot⟩ := got_eq_found M name validity l.2
      rw [found_of_none hm] at hgot
      have hself := @Keyed.get_self M name validity l.2 h
      have hname := @Keyed.got_name M name validity l.2 h
      by_cases ho : Status.offline.overlaps t = true
      · refine Or.inr ⟨M.got name validity l.2, by rw [hname]; exact hself, by rw [hgot]; rfl, ?_⟩
        have hstatus : (M.got name validity l.2).status = .offline := by rw [hgot]; rfl
        rw [hstatus, if_pos ho, hname]
        simp [ho]
      · exact Or.inl (by simp [ho])
  · obtain ⟨m', -, ⟨-, hM⟩ | ⟨-, hM⟩ | hM⟩ :=
      _update_after M m source clock status metadata l.2
    · rw [hM]
      exact Or.inl rfl
    · rw [hM]
      exact Or.inl (by rw [commit_statuses, if_neg (by simp)])
    · rw [hM]
      cases hl : m'.isLocal with
      | true => exact Or.inl (by rw [commit_statuses, if_neg (by simp [hl])])
      | false =>
        refine Or.inr ⟨m', ?_, hl, ?_⟩
        · rw [commit_members, Function.update_self]
        · rw [commit_statuses, if_pos ⟨rfl, hl⟩]
  · by_cases hc : clock ≤ M.nextClock
    · rw [ackGossip_ok hc]; exact Or.inl rfl
    · rw [ackGossip_error hc]; exact Or.inl rfl

/-- What the shuffles of a table hold: no draw returns the local member, and those of `ALL` are
exact. -/
structure Drawn (M : Members) : Prop where
  stocked : M.Stocked
  others : ∀ t n, n ∈ (M.statuses t).drawable → ∃ m, M.members n = some m ∧ m.isLocal = false
  whole : (M.statuses .all).Coherent

theorem Drawn.step (h : M.Drawn) (hs : M.step l = some M') : M'.Drawn := by
  have hk := h.stocked.ordered.keyed
  refine ⟨h.stocked.step hs, fun t n hn => ?_, ?_⟩
  · have hold : n ∈ (M.statuses t).drawable → ∃ m, M'.members n = some m ∧ m.isLocal = false := by
      intro hn
      obtain ⟨m, hm, hl⟩ := h.others t n hn
      obtain ⟨m', hm', hl'⟩ := step_isLocal hk hs hm
      exact ⟨m', hm', by rw [hl', hl]⟩
    obtain heq | ⟨m, hm, hl, heq⟩ := step_shelves hk hs t
    · rw [heq] at hn
      exact hold hn
    · rw [heq] at hn
      split at hn
      · obtain rfl | hn := (h.stocked.sized t).drawable_add hn
        · exact ⟨m, hm, hl⟩
        · exact hold hn
      · exact hold ((h.stocked.sized t).drawable_discard hn)
  · obtain heq | ⟨m, -, -, heq⟩ := step_shelves hk hs .all
    · rw [heq]
      exact h.whole
    · rw [heq, if_pos (Status.overlaps_all _)]
      exact h.whole.add _

theorem drawn_alone (config : Config) (env : Env) : (alone config env).Drawn where
  stocked := (stocked_alone config env).1
  others := by
    intro t n hn
    cases List.mem_toFinset.mp hn
  whole := WeakShuffle.coherent_empty

/-- `__init__` is a sequence of calls. -/
theorem init_calls (config : Config) (env : Env) : run step (alone config env)
    (config.peers.map (fun peer => (.get peer none, env)) ++
      [(.update config.localName (some .online) (some config.localMetadata), env)]) =
    some (init config env).after := by
  have hpeers : ∀ (peers : List Name) (M : Members),
      run step M (peers.map fun peer => (Op.get peer none, env)) =
        some (peers.foldl (fun M peer => (M.get peer none env).1) M) := by
    intro peers
    induction peers with
    | nil => exact fun M => rfl
    | cons peer peers ih => exact fun M => ih _
  have hload : run step (alone config env)
      (config.peers.map fun peer => (Op.get peer none, env)) = some (load config env) :=
    hpeers config.peers _
  have hf := @fresh_load config env
  rw [run_append, hload, Option.bind_some, run_singleton]
  have hname : (load config env).localName = config.localName := hf.localName
  have hlocal := hf.localMember
  rw [hname] at hlocal
  simp only [step, hlocal]
  rfl

theorem drawn_init (config : Config) (env : Env) : (init config env).after.Drawn :=
  (always_of_along (drawn_alone config env) (along_true _ _)
    fun _ _ _ h _ hs => h.step hs).last (init_calls config env)

/-- **The outcomes of drawing one member.** -/
theorem Drawn.find_one_iff (h : M.Drawn) (t : Status) (r : Except PyError (Finset Name)) :
    (∃ draws, M.find 1 t ∅ draws = some r) ↔
      (M.statuses t).iter = ∅ ∧ r = .ok ∅ ∨
        ∃ n ∈ (M.statuses t).drawable, r = .ok {n} := by
  have hsized := h.stocked.sized t
  have hfind : ∀ draws, M.find 1 t ∅ draws =
      findLoop (M.statuses t) (min (M.statuses t).iter.card 1) draws ∅ := by
    intro draws
    simp [find, WeakShuffle.len]
  by_cases he : (M.statuses t).iter = ∅
  · have hnone : (M.statuses t).drawable = ∅ := hsized.drawable_eq_empty he
    have hempty : ∀ draws, M.find 1 t ∅ draws = some (.ok ∅) := by
      intro draws
      rw [hfind, he]
      cases draws <;> rfl
    constructor
    · rintro ⟨draws, hr⟩
      rw [hempty draws] at hr
      cases hr
      exact Or.inl ⟨he, rfl⟩
    · rintro (⟨-, rfl⟩ | ⟨n, hn, -⟩)
      · exact ⟨[], hempty []⟩
      · rw [hnone] at hn
        cases hn
  · have hpos : 0 < (M.statuses t).iter.card :=
      Finset.card_pos.mpr (Finset.nonempty_iff_ne_empty.mpr he)
    have hone : min (M.statuses t).iter.card 1 = 1 := by omega
    have hdraw : ∀ draw draws n, (M.statuses t).choice draw = .ok n →
        M.find 1 t ∅ (draw :: draws) = some (.ok {n}) := by
      intro draw draws n hc
      rw [hfind, hone, findLoop, if_pos (by simp), hc]
      cases draws <;> rfl
    constructor
    · rintro ⟨draws, hr⟩
      cases draws with
      | nil =>
        rw [hfind, hone] at hr
        cases hr
      | cons draw draws =>
        obtain ⟨n, hn, hc⟩ := hsized.choice he draw
        rw [hdraw draw draws n hc] at hr
        cases hr
        exact Or.inr ⟨n, hn, rfl⟩
    · rintro (⟨hnot, -⟩ | ⟨n, hn, rfl⟩)
      · exact absurd hnot he
      · obtain ⟨draw, hc⟩ := WeakShuffle.mem_drawable.mp hn
        exact ⟨[draw], hdraw draw [] n hc⟩

theorem Drawn.mem_all (h : M.Drawn) :
    n ∈ (M.statuses .all).iter ↔ ∃ m, M.members n = some m ∧ m.isLocal = false := by
  rw [h.stocked.ordered.shelved .all n]
  simp only [Status.overlaps_all, and_true]

theorem Drawn.drawable_all (h : M.Drawn) :
    n ∈ (M.statuses .all).drawable ↔ ∃ m, M.members n = some m ∧ m.isLocal = false := by
  rw [WeakShuffle.mem_drawable, h.whole.exact.drawn, h.mem_all]

/-- **The outcomes of drawing any one member**: every other member, and nobody exactly if there is
no other. -/
theorem Drawn.find_any_iff (h : M.Drawn) (r : Except PyError (Finset Name)) :
    (∃ draws, M.find 1 .all ∅ draws = some r) ↔
      (∀ n m, M.members n = some m → m.isLocal = true) ∧ r = .ok ∅ ∨
        ∃ n m, M.members n = some m ∧ m.isLocal = false ∧ r = .ok {n} := by
  rw [h.find_one_iff]
  refine or_congr (and_congr_left' ?_) ?_
  · rw [Finset.eq_empty_iff_forall_notMem]
    constructor
    · intro hno n m hm
      by_contra hl
      exact hno n (h.mem_all.mpr ⟨m, hm, by simpa using hl⟩)
    · intro hlocal n hn
      obtain ⟨m, hm, hl⟩ := h.mem_all.mp hn
      rw [hlocal n m hm] at hl
      cases hl
  · constructor
    · rintro ⟨n, hn, rfl⟩
      obtain ⟨m, hm, hl⟩ := h.drawable_all.mp hn
      exact ⟨n, m, hm, hl, rfl⟩
    · rintro ⟨n, m, hm, hl, rfl⟩
      exact ⟨n, h.drawable_all.mpr ⟨m, hm, hl⟩, rfl⟩

end Members

end Swim
