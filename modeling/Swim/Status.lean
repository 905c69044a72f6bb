import Swim.Basic

/-!
# Swim.Status

`swimprotocol.status`: the `Status` flag and its transition guard.
-/

namespace Swim

inductive Status where
  | online
  | offline
  | suspect
  | available
  | unavailable
  | all
  deriving DecidableEq, Repr

namespace Status

/-- The value of the `Flag` member: `auto()` numbers the real statuses 1, 2, 4. -/
def value : Status → Nat
  | online => 1
  | offline => 2
  | suspect => 4
  | available => 1 ||| 4
  | unavailable => 2 ||| 4
  | all => (1 ||| 4) ||| (2 ||| 4)

/-- The truth value of `self & other`. -/
def overlaps (self other : Status) : Bool := self.value &&& other.value != 0

/-- The statuses a member can hold; the others are aggregates. -/
def real : Status → Bool
  | online | offline | suspect => true
  | available | unavailable | all => false

/-- `all_statuses()`, in the order of `__members__`. -/
def allStatuses : List Status := [online, offline, suspect, available, unavailable, all]

theorem mem_allStatuses (s : Status) : s ∈ allStatuses := by cases s <;> decide

def transition (self desired : Status) : Except PyError Status :=
  if desired = available ∨ desired = unavailable then .error .value
  else if desired = suspect ∧ self = offline then .ok self
  else if desired = offline ∧ self = online then .ok suspect
  else .ok desired

/-- The statuses `transition` does not raise for: it lets `all` through. -/
def settable : Status → Bool
  | available | unavailable => false
  | online | offline | suspect | all => true

def toward (self desired : Status) : Status :=
  match self, desired with
  | offline, suspect => offline
  | online, offline => suspect
  | _, desired => desired

theorem settable_of_real {s : Status} (h : s.real) : s.settable := by
  cases s <;> first | rfl | cases h

theorem transition_settable {self desired : Status} (h : desired.settable) :
    self.transition desired = .ok (self.toward desired) := by
  cases desired <;> cases self <;> first | rfl | cases h

theorem transition_error {self desired : Status} (h : desired.settable = false) :
    self.transition desired = .error .value := by
  cases desired <;> first | rfl | cases h

theorem toward_real {self desired : Status} (h : desired.real) : (self.toward desired).real := by
  cases desired <;> cases self <;> first | rfl | cases h

end Status

end Swim
