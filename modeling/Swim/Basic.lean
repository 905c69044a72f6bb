import Mathlib.Data.Finmap

/-!
# Swim.Basic

The Python values the model is made of, and how a method that may raise is embedded.

* `Name`, `Bytes`, `Metadata` — `str`, `bytes` and `Mapping[str, bytes]`; a `Finmap` is exactly a
  finite mapping up to equality, so it also stands for `frozenset(mapping.items())`.
* `Env` — what a step reads from outside the process: the clock and the random validity bytes.
* `Py σ` — the outcome of a method that mutates a `σ`: the state it leaves, together with the
  exception when it raised one. A raise keeps the mutations made before it.
-/

namespace Swim

abbrev Name := String

abbrev Bytes := List UInt8

abbrev Metadata := Finmap fun _ : String => Bytes

/-- Readings of `time.time()`; the code only ever copies them. -/
abbrev Time := Nat

/-- `now` is the value of `time.time()` during the step, `randbytes name` the random validity
that a `Member` object created for `name` during the step is given. -/
structure Env where
  now : Time
  randbytes : Name → Bytes

/-- The exceptions the modelled code raises; `struct` is `struct.error`. -/
inductive PyError where
  | assertion
  | value
  | key
  | struct
  deriving DecidableEq, Repr

structure Raised (σ : Type) where
  error : PyError
  state : σ

abbrev Py (σ : Type) := Except (Raised σ) σ

namespace Py

variable {σ τ : Type}

def after : Py σ → σ
  | .ok s => s
  | .error r => r.state

def raised : Py σ → Option PyError
  | .ok _ => none
  | .error r => some r.error

def andThen : Py σ → (σ → Py σ) → Py σ
  | .ok s, f => f s
  | .error r, _ => .error r

/-- The effect on an object that contains the one the method was called on. -/
def inside (f : σ → τ) : Py σ → Py τ
  | .ok s => .ok (f s)
  | .error r => .error ⟨r.error, f r.state⟩

@[simp] theorem after_ok (s : σ) : after (.ok s) = s := rfl

@[simp] theorem after_error (r : Raised σ) : after (.error r) = r.state := rfl

@[simp] theorem raised_ok (s : σ) : raised (.ok s : Py σ) = none := rfl

@[simp] theorem andThen_ok (s : σ) (f : σ → Py σ) : andThen (.ok s) f = f s := rfl

@[simp] theorem inside_ok (f : σ → τ) (s : σ) : inside f (.ok s) = .ok (f s) := rfl

@[simp] theorem after_inside (f : σ → τ) (r : Py σ) : (inside f r).after = f r.after := by
  cases r <;> rfl

@[simp] theorem raised_inside (f : σ → τ) (r : Py σ) : (inside f r).raised = r.raised := by
  cases r <;> rfl

end Py

end Swim
