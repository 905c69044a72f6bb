import Mathlib.Data.List.TakeWhile
import Mathlib.Logic.Function.Basic
import Swim.Transition.Run

/-!
# Swim.Listener

`swimprotocol.listener`: items for any number of consumers.

`poll` makes an `asyncio.Event`, registers an empty list for it and waits. The list is the value of
a `WeakKeyDictionary`: it goes with its event, which `poll` alone holds. The list of a `poll` that
is cancelled may stay for as long as its task is referenced, and `notify` adds to it, but nobody
reads it; here it goes at once. Between two awaits a task is one atomic function of the state, so
these are the steps:

* `create`, `cancel` — a task that runs `CallbackPoll.run`, or a plain `poll`; a cancelled task ends
  when it is next resumed.
* `resume` — the task goes on to its next await. It can when its event is set.
* `notify` — of one item.

The callback of a `CallbackPoll` is a coroutine function, as `run_subtask` takes coroutines: to
call it runs none of it and cannot raise. `delivers` says what a `CallbackPoll` has been given in
any run. The attribute `event` of `Listener` is never read.
-/

namespace Swim

open Transition

variable {α : Type*}

abbrev PollEvent := Nat

/-- Events are numbered as they are made; `fresh` is the next one. -/
structure Listener (α : Type*) where
  waiting : PollEvent → Option (List α)
  isSet : PollEvent → Bool
  fresh : PollEvent

namespace Listener

def init : Listener α := ⟨fun _ => none, fun _ => false, 0⟩

/-- `poll` up to its `event.wait()`. -/
def poll (L : Listener α) : PollEvent × Listener α :=
  (L.fresh, { L with
    waiting := Function.update L.waiting L.fresh (some [])
    isSet := Function.update L.isSet L.fresh false
    fresh := L.fresh + 1 })

/-- The event of a `poll` that is over. -/
def drop (L : Listener α) (event : PollEvent) : Listener α :=
  { L with waiting := Function.update L.waiting event none }

def notify (L : Listener α) (item : α) : Listener α :=
  { L with
    waiting := fun event => (L.waiting event).map (· ++ [item])
    isSet := fun event => (L.waiting event).isSome || L.isSet event }

variable {L : Listener α} {event e : PollEvent} {item : α} {items : List α}

@[simp] theorem poll_waiting :
    L.poll.2.waiting e = if e = L.fresh then some [] else L.waiting e := Function.update_apply ..

@[simp] theorem poll_isSet : L.poll.2.isSet e = if e = L.fresh then false else L.isSet e :=
  Function.update_apply ..

@[simp] theorem drop_waiting :
    (L.drop event).waiting e = if e = event then none else L.waiting e := Function.update_apply ..

@[simp] theorem notify_waiting : (L.notify item).waiting e = (L.waiting e).map (· ++ [item]) := rfl

/-- An event is set when its list has items, and events to come have no list. -/
structure Ok (L : Listener α) : Prop where
  fresh : ∀ e, L.fresh ≤ e → L.waiting e = none
  isSet : ∀ e items, L.waiting e = some items → (L.isSet e = true ↔ items ≠ [])

theorem ok_init : (init : Listener α).Ok := ⟨fun _ _ => rfl, nofun⟩

theorem Ok.poll (h : L.Ok) : L.poll.2.Ok where
  fresh := by
    intro e he
    have hlt : L.fresh < e := he
    rw [poll_waiting, if_neg (Nat.ne_of_gt hlt)]
    exact h.fresh e (Nat.le_of_lt hlt)
  isSet := by
    intro e items he
    rw [poll_waiting] at he
    rw [poll_isSet]
    split at he
    · cases he; simp [*]
    · rw [if_neg ‹_›]; exact h.isSet e items he

theorem Ok.drop (h : L.Ok) : (L.drop event).Ok where
  fresh := by
    intro e he
    rw [drop_waiting, h.fresh e he, ite_self]
  isSet := by
    intro e items he
    rw [drop_waiting] at he
    split at he
    · cases he
    · exact h.isSet e items he

theorem Ok.notify (h : L.Ok) : (L.notify item).Ok where
  fresh := by
    intro e he
    rw [notify_waiting, h.fresh e he, Option.map_none]
  isSet := by
    intro e items he
    obtain ⟨old, hold, rfl⟩ := Option.map_eq_some_iff.mp he
    simp [Listener.notify, hold]

theorem Ok.lt_fresh (h : L.Ok) (he : L.waiting e = some items) : e < L.fresh := by
  by_contra hle
  rw [h.fresh e (Nat.le_of_not_lt hle)] at he
  cases he

/-! ## The consumers -/

/-- Where the task of a consumer is: not started, in the `event.wait()` of a `poll`, or over. -/
inductive Phase where
  | ready
  | waiting (event : PollEvent)
  | ended

/-- `callback` tells `CallbackPoll.run` from a plain `poll`; `items` are those the callback has been
started with, or those `poll` has returned. -/
structure Consumer (α : Type*) where
  callback : Bool
  phase : Phase
  cancelled : Bool
  items : List α

end Listener

open Listener (Consumer)

abbrev ConsumerId := Nat

structure Consumers (α : Type*) where
  listener : Listener α
  consumers : ConsumerId → Option (Consumer α)

namespace Consumers

inductive Event (α : Type*) where
  | create (id : ConsumerId) (callback : Bool)
  | resume (id : ConsumerId)
  | cancel (id : ConsumerId)
  | notify (item : α)

def init : Consumers α := ⟨.init, fun _ => none⟩

def put (C : Consumers α) (id : ConsumerId) (c : Consumer α) : Consumers α :=
  { C with consumers := Function.update C.consumers id (some c) }

/-- It calls `poll` and waits. -/
def poll (C : Consumers α) (id : ConsumerId) (c : Consumer α) : Consumers α :=
  let (event, listener) := C.listener.poll
  { C with listener }.put id { c with phase := .waiting event }

/-- A consumer goes on to its next await. After a `poll` that returns, `CallbackPoll.run` starts its
callback, a coroutine function, with each item and polls again. -/
def resume (C : Consumers α) (id : ConsumerId) (c : Consumer α) : Option (Consumers α) :=
  match c.phase with
  | .ready =>
    if c.cancelled then some (C.put id { c with phase := .ended }) else some (C.poll id c)
  | .waiting event =>
    if c.cancelled then
      some ({ C with listener := C.listener.drop event }.put id { c with phase := .ended })
    else if C.listener.isSet event then
      (C.listener.waiting event).map fun items =>
        let C := { C with listener := C.listener.drop event }
        let c := { c with items := c.items ++ items }
        if c.callback then C.poll id c else C.put id { c with phase := .ended }
    else none
  | .ended => none

def next (C : Consumers α) : Event α → Option (Consumers α)
  | .create id callback =>
    if (C.consumers id).isNone then some (C.put id ⟨callback, .ready, false, []⟩) else none
  | .resume id => (C.consumers id).bind (C.resume id)
  | .cancel id => (C.consumers id).map fun c => C.put id { c with cancelled := true }
  | .notify item => some { C with listener := C.listener.notify item }

@[simp] theorem put_self {C : Consumers α} {id : ConsumerId} {c : Consumer α} :
    (C.put id c).consumers id = some c := Function.update_self _ _ _

theorem put_of_ne {C : Consumers α} {id k : ConsumerId} {c : Consumer α} (h : k ≠ id) :
    (C.put id c).consumers k = C.consumers k := Function.update_of_ne h _ _

/-! ## What has been delivered -/

def Event.item : Event α → Option α
  | notify item => some item
  | create _ _ | resume _ | cancel _ => none

def Event.resumes (id : ConsumerId) : Event α → Bool
  | resume k => k == id
  | create _ _ | cancel _ | notify _ => false

def notifiedSince (id : ConsumerId) (ls : List (Event α)) : List α :=
  (ls.dropWhile fun l => !l.resumes id).filterMap Event.item

def Ran (id : ConsumerId) (ls : List (Event α)) : Prop := ∃ l ∈ ls, l.resumes id = true

variable {C C' : Consumers α} {L L' : Listener α} {c c' : Consumer α} {id k : ConsumerId}
  {l : Event α} {ls : List (Event α)} {item : α}

theorem ran_concat : Ran id (ls ++ [l]) ↔ Ran id ls ∨ l.resumes id = true := by
  simp [Ran, or_and_right, exists_or]

theorem notifiedSince_concat (h : Ran id ls) :
    notifiedSince id (ls ++ [l]) = notifiedSince id ls ++ l.item.toList := by
  obtain ⟨x, hx, hr⟩ := h
  have hne : ¬ (ls.dropWhile fun l => !l.resumes id).isEmpty = true := by
    rw [List.isEmpty_iff, List.dropWhile_eq_nil_iff]
    intro hall
    have hno := hall x hx
    rw [hr] at hno
    cases hno
  rw [notifiedSince, List.dropWhile_append, if_neg hne, List.filterMap_append]
  cases hl : l.item <;> simp [notifiedSince, hl]

theorem notifiedSince_first (h : ¬ Ran id ls) : notifiedSince id (ls ++ [.resume id]) = [] := by
  have hall : ∀ x ∈ ls, (!x.resumes id) = true := by
    intro x hx
    rw [Bool.not_eq_true', ← Bool.not_eq_true]
    exact fun hr => h ⟨x, hx, hr⟩
  rw [notifiedSince, List.dropWhile_append, List.dropWhile_eq_nil_iff.mpr hall]
  simp [Event.resumes, Event.item]

/-- A consumer that waits has been given what was notified since it first ran, but for the items in
its list. -/
def Fed (L : Listener α) (ls : List (Event α)) (id : ConsumerId) (c : Consumer α) : Prop :=
  match c.phase with
  | .ready => ¬ Ran id ls ∧ c.items = []
  | .waiting event => Ran id ls ∧
    ∃ items, L.waiting event = some items ∧ c.items ++ items = notifiedSince id ls
  | .ended => c.callback = true → c.cancelled = true

theorem Fed.keep (h : Fed L ls id c) (hitem : l.item = none) (hresumes : l.resumes id = false)
    (hwaiting : ∀ event, c.phase = .waiting event → L'.waiting event = L.waiting event) :
    Fed L' (ls ++ [l]) id c := by
  have hran : Ran id (ls ++ [l]) ↔ Ran id ls := by simp [ran_concat, hresumes]
  cases hp : c.phase with
  | ready =>
    rw [Fed, hp] at h ⊢
    exact ⟨fun hr => h.1 (hran.mp hr), h.2⟩
  | waiting event =>
    rw [Fed, hp] at h ⊢
    obtain ⟨hr, items, hw, heq⟩ := h
    refine ⟨hran.mpr hr, items, (hwaiting _ hp).trans hw, ?_⟩
    rw [notifiedSince_concat hr, hitem, heq, Option.toList_none, List.append_nil]
  | ended =>
    rw [Fed, hp] at h ⊢
    exact h

theorem Fed.notify (h : Fed L ls id c) : Fed (L.notify item) (ls ++ [.notify item]) id c := by
  have hran : Ran id (ls ++ [.notify item]) ↔ Ran id ls := by simp [ran_concat, Event.resumes]
  cases hp : c.phase with
  | ready =>
    rw [Fed, hp] at h ⊢
    exact ⟨fun hr => h.1 (hran.mp hr), h.2⟩
  | waiting event =>
    rw [Fed, hp] at h ⊢
    obtain ⟨hr, items, hw, heq⟩ := h
    refine ⟨hran.mpr hr, items ++ [item], ?_, ?_⟩
    · rw [Listener.notify_waiting, hw]; rfl
    · rw [notifiedSince_concat hr, ← heq, List.append_assoc]; rfl
  | ended =>
    rw [Fed, hp] at h ⊢
    exact h

theorem Fed.cancel (h : Fed L ls id c) : Fed L ls id { c with cancelled := true } := by
  cases hp : c.phase with
  | ready | waiting => rw [Fed, hp] at h; simp only [Fed]; exact h
  | ended => simp only [Fed]; exact fun _ => trivial

/-- Every consumer is fed, and no two wait for one event. -/
structure AllFed (ls : List (Event α)) (C : Consumers α) : Prop where
  ok : C.listener.Ok
  absent : ∀ id, C.consumers id = none → ¬ Ran id ls
  fed : ∀ id c, C.consumers id = some c → Fed C.listener ls id c
  apart : ∀ id k c c' event, C.consumers id = some c → C.consumers k = some c' →
    c.phase = .waiting event → c'.phase = .waiting event → id = k

theorem AllFed.put (h : AllFed ls C) (hok : L.Ok) (hfed : Fed L (ls ++ [l]) id c)
    (hitem : l.item = none) (hresumes : ∀ k, k ≠ id → l.resumes k = false)
    (hothers : ∀ k x event, k ≠ id → C.consumers k = some x → x.phase = .waiting event →
      L.waiting event = C.listener.waiting event ∧ c.phase ≠ .waiting event) :
    AllFed (ls ++ [l]) (({ C with listener := L } : Consumers α).put id c) := by
  have hself : ∀ x, (({ C with listener := L } : Consumers α).put id c).consumers id = some x →
      x = c := by
    intro x hx
    rw [put_self] at hx
    exact (Option.some.inj hx).symm
  have hof : ∀ k, k ≠ id → (({ C with listener := L } : Consumers α).put id c).consumers k =
      C.consumers k := fun k hk => put_of_ne hk
  refine ⟨hok, fun k hk => ?_, fun k x hx => ?_, fun k j x y event hx hy hxe hye => ?_⟩
  · by_cases hne : k = id
    · subst hne
      rw [put_self] at hk
      cases hk
    · rw [hof k hne] at hk
      rw [ran_concat, hresumes k hne]
      exact fun hr => hr.elim (h.absent k hk) Bool.false_ne_true
  · by_cases hne : k = id
    · subst hne
      rw [hself x hx]
      exact hfed
    · rw [hof k hne] at hx
      exact (h.fed k x hx).keep hitem (hresumes k hne) fun event he =>
        (hothers k x event hne hx he).1
  · by_cases hk : k = id
    · subst hk
      by_cases hj : j = k
      · exact hj.symm
      · rw [hof j hj] at hy
        rw [hself x hx] at hxe
        exact absurd hxe (hothers j y event hj hy hye).2
    · rw [hof k hk] at hx
      by_cases hj : j = id
      · subst hj
        rw [hself y hy] at hye
        exact absurd hye (hothers k x event hk hx hxe).2
      · rw [hof j hj] at hy
        exact h.apart k j x y event hx hy hxe hye

theorem AllFed.poll (h : AllFed ls C) (hok : L.Ok)
    (hothers : ∀ k x event, k ≠ id → C.consumers k = some x → x.phase = .waiting event →
      L.waiting event = C.listener.waiting event ∧ event < L.fresh)
    (hitems : c.items = notifiedSince id (ls ++ [.resume id])) :
    AllFed (ls ++ [.resume id]) (({ C with listener := L } : Consumers α).poll id c) := by
  refine @AllFed.put _ C L.poll.2 { c with phase := .waiting L.fresh } id (.resume id) ls h hok.poll
    ⟨ran_concat.mpr (Or.inr (by simp [Event.resumes])), [], by simp, by simpa using hitems⟩ rfl
    (fun k hk => by simp [Event.resumes, Ne.symm hk]) fun k x event hk hx he => ?_
  obtain ⟨hw, hlt⟩ := hothers k x event hk hx he
  have hne : event ≠ L.fresh := Nat.ne_of_lt hlt
  refine ⟨?_, fun heq => hne (by cases heq; rfl)⟩
  rw [Listener.poll_waiting, if_neg hne, hw]

theorem allFed_init : AllFed [] (init : Consumers α) :=
  ⟨Listener.ok_init, fun _ _ => by simp [Ran], nofun, nofun⟩

theorem AllFed.resume (h : AllFed ls C) (hc : C.consumers id = some c)
    (hs : C.resume id c = some C') : AllFed (ls ++ [.resume id]) C' := by
  have hfed := h.fed id c hc
  have hothers : ∀ k, k ≠ id → (Event.resume id : Event α).resumes k = false :=
    fun k hk => by simp [Event.resumes, Ne.symm hk]
  have hlt : ∀ k x event, C.consumers k = some x → x.phase = .waiting event →
      event < C.listener.fresh := by
    intro k x event hx he
    have hx' := h.fed k x hx
    rw [Fed, he] at hx'
    obtain ⟨-, items, hw, -⟩ := hx'
    exact h.ok.lt_fresh hw
  cases hp : c.phase with
  | ready =>
    rw [Fed, hp] at hfed
    simp only [Consumers.resume, hp] at hs
    split at hs <;> cases hs
    · rename_i hcancelled
      exact h.put h.ok (fun _ => hcancelled) rfl hothers fun k x event _ _ _ => ⟨rfl, nofun⟩
    · refine h.poll h.ok (fun k x event _ hx he => ⟨rfl, hlt k x event hx he⟩) ?_
      rw [notifiedSince_first hfed.1, hfed.2]
  | waiting event =>
    rw [Fed, hp] at hfed
    obtain ⟨hran, items, hw, hitems⟩ := hfed
    -- the entries of the others stay when the event is dropped
    have hdrop : ∀ k x e, k ≠ id → C.consumers k = some x → x.phase = .waiting e →
        (C.listener.drop event).waiting e = C.listener.waiting e := by
      intro k x e hk hx he
      refine Listener.drop_waiting.trans (if_neg ?_)
      rintro rfl
      exact hk (h.apart k id x c e hx hc he hp)
    simp only [Consumers.resume, hp] at hs
    split at hs
    · rename_i hcancelled
      cases hs
      exact h.put h.ok.drop (fun _ => hcancelled) rfl hothers fun k x e hk hx he =>
        ⟨hdrop k x e hk hx he, nofun⟩
    · split at hs
      · rw [hw, Option.map_some] at hs
        split at hs <;> cases hs
        · refine h.poll h.ok.drop
            (fun k x e hk hx he => ⟨hdrop k x e hk hx he, hlt k x e hx he⟩) ?_
          rw [notifiedSince_concat hran, hitems]
          exact (List.append_nil _).symm
        · rename_i hcallback
          exact h.put h.ok.drop (fun hcb => absurd hcb hcallback) rfl hothers
            fun k x e hk hx he => ⟨hdrop k x e hk hx he, nofun⟩
      · cases hs
  | ended => simp [Consumers.resume, hp] at hs

/-- **One step.** -/
theorem AllFed.next (h : AllFed ls C) (hs : C.next l = some C') : AllFed (ls ++ [l]) C' := by
  cases l with
  | create id callback =>
    simp only [Consumers.next] at hs
    split at hs
    · rename_i hnone
      cases hs
      refine h.put h.ok ⟨?_, rfl⟩ rfl (fun _ _ => rfl) fun _ _ _ _ _ _ => ⟨rfl, nofun⟩
      rw [ran_concat]
      exact fun hr => hr.elim (h.absent id (Option.isNone_iff_eq_none.mp hnone)) Bool.false_ne_true
    · cases hs
  | cancel id =>
    obtain ⟨c, hc, rfl⟩ := Option.map_eq_some_iff.mp hs
    have hfed : Fed C.listener (ls ++ [.cancel id]) id c :=
      (h.fed id c hc).keep rfl rfl fun _ _ => rfl
    refine h.put h.ok hfed.cancel rfl (fun _ _ => rfl) fun k x event hk hx he =>
      ⟨rfl, fun he' => hk (h.apart k id x c event hx hc he he')⟩
  | notify item =>
    cases hs
    refine ⟨h.ok.notify, fun id hid => ?_, fun id c hc => (h.fed id c hc).notify, h.apart⟩
    rw [ran_concat]
    exact fun hr => hr.elim (h.absent id hid) Bool.false_ne_true
  | resume id =>
    obtain ⟨c, hc, hs⟩ := Option.bind_eq_some_iff.mp hs
    exact h.resume hc hs

/-- **Exactly once, in order.** Once a `CallbackPoll` has run, and until it is cancelled, what its
callback was started with and what waits in its list is what was notified since; and when something
waits, the task can go on and start its callback with all of it. -/
theorem delivers (ls : List (Event α)) (C : Consumers α) (h : run next init ls = some C)
    (id : ConsumerId) (c : Consumer α) (hc : C.consumers id = some c)
    (hcallback : c.callback = true) (hcancelled : c.cancelled = false) (hran : Ran id ls) :
    ∃ event items, c.phase = .waiting event ∧ C.listener.waiting event = some items ∧
      c.items ++ items = notifiedSince id ls ∧
      (items ≠ [] → ∃ C' c', C.next (.resume id) = some C' ∧ C'.consumers id = some c' ∧
        c'.items = c.items ++ items) := by
  have hall : AllFed ls C := run_induction (R := AllFed) allFed_init
    (fun _ _ _ _ _ ih hs => ih.next hs) h
  have hfed := hall.fed id c hc
  cases hp : c.phase with
  | ready =>
    rw [Fed, hp] at hfed
    exact absurd hran hfed.1
  | ended =>
    rw [Fed, hp] at hfed
    rw [hfed hcallback] at hcancelled
    cases hcancelled
  | waiting event =>
    rw [Fed, hp] at hfed
    obtain ⟨-, items, hw, hitems⟩ := hfed
    refine ⟨event, items, rfl, hw, hitems, fun hne => ?_⟩
    have hset := (hall.ok.isSet event items hw).mpr hne
    refine ⟨({ C with listener := C.listener.drop event } : Consumers α).poll id
      { c with items := c.items ++ items }, _, ?_, put_self, rfl⟩
    rw [next, hc, Option.bind_some, resume, hp]
    simp [hcancelled, hset, hw, hcallback]

/-- A `CallbackPoll` and a `poll`; two items at once, and a third after the callback ran. -/
def burst : List (Event Nat) :=
  [.create 0 true, .create 1 false, .resume 0, .notify 1, .resume 1, .notify 2, .resume 0,
    .resume 1, .notify 3]

theorem delivers_burst : ∃ C c, run next init burst = some C ∧ C.consumers 0 = some c ∧
    c.items = [1, 2] ∧ ∃ event items, C.listener.waiting event = some items ∧
      c.items ++ items = notifiedSince 0 burst := by
  obtain ⟨C, hC⟩ : ∃ C, run next init burst = some C := ⟨_, rfl⟩
  obtain ⟨c, hc⟩ : ∃ c, C.consumers 0 = some c := by cases hC; exact ⟨_, rfl⟩
  obtain ⟨hitems, hcallback, hcancelled⟩ :
      c.items = [1, 2] ∧ c.callback = true ∧ c.cancelled = false := by
    cases hC
    cases hc
    exact ⟨rfl, rfl, rfl⟩
  obtain ⟨event, items, -, hw, heq, -⟩ := delivers burst C hC 0 c hc hcallback hcancelled
    ⟨.resume 0, by simp [burst], rfl⟩
  exact ⟨C, c, hC, hc, hitems, event, items, hw, heq⟩

end Consumers

end Swim
