import Mathlib.Data.Finmap
import Swim.Basic
import Swim.Collection.Index

/-!
# Swim.Shuffle

`swimprotocol.shuffle`: `WeakShuffle`, a set of weakly referenced elements that can be drawn from.

Elements are taken up to Python equality. A weak reference is a number: `refs` holds, for each
reference created so far, the element it points to, or `none` once that element has died.

* `add`, `discard`, `choice`, `contains`, `iter`, `len` — the methods.
* `finalize` — `_finalize`, called by `discard` and, as the weakref callback, when an element dies.
* `die` — the death of an element: its references go dead, the weak dictionaries lose its
  entries, and the callback of its registered reference runs. A reference left over from an
  earlier `discard` is no longer in `_indexes`, so its callback would pop nothing.
-/

namespace Swim

abbrev Ref := Nat

structure WeakShuffle (α : Type) where
  refs : List (Option α)
  weakVals : Finmap fun _ : α => Ref
  weakValsRev : Finmap fun _ : Ref => α
  indexes : Finmap fun _ : Ref => Nat
  values : List Ref

namespace WeakShuffle

variable {α : Type}

def empty : WeakShuffle α := ⟨[], ∅, ∅, ∅, []⟩

instance : Inhabited (WeakShuffle α) := ⟨empty⟩

/-- Calling a weak reference: `none` when its element has died. -/
def deref (s : WeakShuffle α) (r : Ref) : Option α := (s.refs[r]?).join

def finalize (s : WeakShuffle α) (weakVal : Ref) : WeakShuffle α :=
  match s.indexes.lookup weakVal with
  | none => s
  | some index =>
    let endIndex := s.values.length - 1
    let values :=
      if index < endIndex then s.values.set index (s.values.getLastD weakVal) else s.values
    { s with indexes := s.indexes.erase weakVal, values := values.dropLast }

def contains (s : WeakShuffle α) (val : α) : Prop := val ∈ s.weakVals

/-- The elements `__iter__` yields, each once. -/
def iter (s : WeakShuffle α) : Finset α := s.weakVals.keys

def len (s : WeakShuffle α) : Nat := s.iter.card

/-- `random.choice(self._values)` is the slot `draw` modulo the length, for an arbitrary `draw`. -/
def choice (s : WeakShuffle α) (draw : Nat) : Except PyError α :=
  match s.values[draw % s.values.length]? with
  | none => .error .key
  | some weakVal =>
    match s.deref weakVal with
    | none => .error .assertion
    | some val => .ok val

variable [DecidableEq α]

instance (s : WeakShuffle α) (val : α) : Decidable (s.contains val) :=
  inferInstanceAs (Decidable (val ∈ s.weakVals))

def add (s : WeakShuffle α) (val : α) : WeakShuffle α :=
  if s.contains val then s
  else
    let weakVal := s.refs.length
    { refs := s.refs ++ [some val]
      weakVals := s.weakVals.insert val weakVal
      weakValsRev := s.weakValsRev.insert weakVal val
      indexes := s.indexes.insert weakVal s.values.length
      values := s.values ++ [weakVal] }

def discard (s : WeakShuffle α) (val : α) : WeakShuffle α :=
  match s.weakVals.lookup val with
  | none => s
  | some weakVal =>
    { s with
      weakVals := s.weakVals.erase val
      weakValsRev := s.weakValsRev.erase weakVal }.finalize weakVal

def die (s : WeakShuffle α) (val : α) : WeakShuffle α :=
  let refs := s.refs.map fun o => if o = some val then none else o
  match s.weakVals.lookup val with
  | none => { s with refs }
  | some weakVal =>
    { s with
      refs
      weakVals := s.weakVals.erase val
      weakValsRev := s.weakValsRev.erase weakVal }.finalize weakVal

def ofIter (init : List α) : WeakShuffle α := init.foldl add empty

inductive Op (α : Type) where
  | add (val : α)
  | discard (val : α)
  | die (val : α)

def step (s : WeakShuffle α) : Op α → Option (WeakShuffle α)
  | .add val => some (s.add val)
  | .discard val => some (s.discard val)
  | .die val => some (s.die val)

/-! ## What `__iter__` yields -/

section Iter

omit [DecidableEq α]

variable {s : WeakShuffle α} {a b : α}

@[simp] theorem finalize_weakVals (r : Ref) : (s.finalize r).weakVals = s.weakVals := by
  unfold finalize; split <;> rfl

theorem mem_iter : a ∈ s.iter ↔ s.contains a := Finmap.mem_keys

variable [DecidableEq α]

theorem mem_iter_iff : a ∈ s.iter ↔ ∃ r, s.weakVals.lookup a = some r := by
  rw [mem_iter, contains, ← Finmap.lookup_isSome, Option.isSome_iff_exists]

@[simp] theorem mem_iter_add : a ∈ (s.add b).iter ↔ a = b ∨ a ∈ s.iter := by
  unfold add
  split
  · rename_i hb
    constructor
    · exact Or.inr
    · rintro (rfl | h)
      · exact mem_iter.mpr hb
      · exact h
  · simp only [iter, Finmap.mem_keys, Finmap.mem_insert]

theorem erase_of_lookup_none {m : Finmap fun _ : α => Ref} (h : m.lookup b = none) :
    m.erase b = m := by
  refine Finmap.ext_lookup fun x => ?_
  by_cases hx : x = b
  · rw [hx, h, Finmap.lookup_erase]
  · rw [Finmap.lookup_erase_ne hx]

theorem discard_weakVals : (s.discard b).weakVals = s.weakVals.erase b := by
  unfold discard
  split
  · rename_i hb; exact (erase_of_lookup_none hb).symm
  · simp

theorem die_weakVals : (s.die b).weakVals = s.weakVals.erase b := by
  unfold die
  split
  · rename_i hb; exact (erase_of_lookup_none hb).symm
  · simp

@[simp] theorem mem_iter_discard : a ∈ (s.discard b).iter ↔ a ≠ b ∧ a ∈ s.iter := by
  rw [iter, discard_weakVals, Finmap.mem_keys, Finmap.mem_erase, iter, Finmap.mem_keys]

@[simp] theorem mem_iter_die : a ∈ (s.die b).iter ↔ a ≠ b ∧ a ∈ s.iter := by
  rw [iter, die_weakVals, Finmap.mem_keys, Finmap.mem_erase, iter, Finmap.mem_keys]

end Iter

end WeakShuffle

end Swim
