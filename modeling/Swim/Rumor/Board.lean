import Mathlib.Data.Set.Basic
import Mathlib.Order.Lattice

/-!
# Swim.Rumor.Board

Gossip with acknowledgements, in the abstract: parties keep a clock and data about every party,
send each other what they hold, and record what has been acknowledged. Names, data and clocks are
arbitrary types; clocks are linearly ordered.

* `Board`     — what all parties hold, and the messages in flight.
* `Move`      — one step: write an entry, take gossip, learn from a receipt, or rest. Entries may
  be written to anything; what a protocol guarantees about its moves is stated as a guard.
* `Step`      — the effect of a move. At any step gossip may be sent, messages may get lost and
  records may be forgotten; a message taken may still be in flight, as any may be duplicated.
* `Bounded`   — acknowledged clocks are at most the clock the acknowledged party holds itself.
* `Held`      — acknowledged clocks are really held by the party that acknowledged them.
-/

namespace Rumor

variable {ν μ κ : Type*}

structure Gossip (ν μ κ : Type*) where
  sender : ν
  receiver : ν
  about : ν
  clock : κ
  data : Option μ

structure Receipt (ν κ : Type*) where
  sender : ν
  receiver : ν
  about : ν
  clock : κ

def Gossip.receipt (g : Gossip ν μ κ) : Receipt ν κ := ⟨g.receiver, g.sender, g.about, g.clock⟩

/-- `clock a m` and `data a m` are what `a` holds about `m`, and `known a b m` is the clock about
`m` that `b` has acknowledged to `a`. `heard a m` is the greatest clock in the gossip of `m` about
itself that `a` has taken. -/
structure Board (ν μ κ : Type*) where
  clock : ν → ν → κ
  data : ν → ν → Option μ
  known : ν → ν → ν → Option κ
  heard : ν → ν → κ
  gossips : Set (Gossip ν μ κ)
  receipts : Set (Receipt ν κ)

inductive Move (ν μ κ : Type*) where
  | rest
  | touch (a m : ν) (clock : κ) (data : Option μ)
  | take (g : Gossip ν μ κ) (clock : κ) (data : Option μ)
  | learn (t : Receipt ν κ)

/-- The entry a move writes: who holds it, about whom, and the new clock and data. Other entries
keep their data. -/
def Move.entry : Move ν μ κ → Option (ν × ν × κ × Option μ)
  | touch a m c d => some (a, m, c, d)
  | take g c d => some (g.receiver, g.about, c, d)
  | rest | learn _ => none

structure Step [LinearOrder κ] (B : Board ν μ κ) (l : Move ν μ κ) (B' : Board ν μ κ) : Prop where
  taken : ∀ g c d, l = .take g c d → g ∈ B.gossips
  learned : ∀ t, l = .learn t → t ∈ B.receipts
  kept : ∀ a m, (∀ c d, l.entry ≠ some (a, m, c, d)) →
    B.clock a m ≤ B'.clock a m ∧ B'.data a m = B.data a m
  written : ∀ a m c d, l.entry = some (a, m, c, d) → B'.clock a m = c ∧ B'.data a m = d
  heard : ∀ a m, B'.heard a m = B.heard a m ∨
    ∃ g c d, l = .take g c d ∧ g.receiver = a ∧ g.about = m ∧ g.sender = m ∧
      B'.heard a m = max (B.heard a m) g.clock
  hears : ∀ g c d, l = .take g c d → g.sender = g.about →
    B'.heard g.receiver g.about = max (B.heard g.receiver g.about) g.clock
  known : ∀ a b m k, B'.known a b m = some k →
    B.known a b m = some k ∨ l = .learn ⟨b, a, m, k⟩
  gossips : ∀ g ∈ B'.gossips, g ∈ B.gossips ∨ g.clock = B'.clock g.sender g.about ∧
    g.data = B'.data g.sender g.about ∧ g.data.isSome = true
  receipts : ∀ t ∈ B'.receipts, t ∈ B.receipts ∨ ∃ g c d, l = .take g c d ∧ t = g.receipt

section Rules

variable [LinearOrder κ] {B B' : Board ν μ κ} {l : Move ν μ κ}

def Monotone (B : Board ν μ κ) (l : Move ν μ κ) : Prop :=
  ∀ a m c d, l.entry = some (a, m, c, d) → B.clock a m ≤ c

def Stores (_B : Board ν μ κ) (l : Move ν μ κ) : Prop :=
  ∀ g c d, l = .take g c d → g.about ≠ g.receiver → g.clock ≤ c

theorem Step.rest (hc : B'.clock = B.clock) (hd : B'.data = B.data) (hk : B'.known = B.known)
    (hh : B'.heard = B.heard) (hg : B'.gossips ⊆ B.gossips) (hr : B'.receipts ⊆ B.receipts) :
    Step B .rest B' where
  taken := fun _ _ _ hl => by cases hl
  learned := fun _ hl => by cases hl
  kept := fun _ _ _ => ⟨le_of_eq (by rw [hc]), by rw [hd]⟩
  written := fun _ _ _ _ he => by cases he
  heard := fun _ _ => Or.inl (by rw [hh])
  hears := fun _ _ _ hl => by cases hl
  known := fun _ _ _ _ hkn => Or.inl (by rw [← hk]; exact hkn)
  gossips := fun _ hmem => Or.inl (hg hmem)
  receipts := fun _ hmem => Or.inl (hr hmem)

theorem Step.entry_cases (h : Step B l B') (a m : ν) :
    (∃ c d, l.entry = some (a, m, c, d) ∧ B'.clock a m = c ∧ B'.data a m = d) ∨
      ((∀ c d, l.entry ≠ some (a, m, c, d)) ∧ B.clock a m ≤ B'.clock a m ∧
        B'.data a m = B.data a m) := by
  by_cases he : ∃ c d, l.entry = some (a, m, c, d)
  · obtain ⟨c, d, he⟩ := he
    exact Or.inl ⟨c, d, he, h.written a m c d he⟩
  · have hno : ∀ c d, l.entry ≠ some (a, m, c, d) := fun c d hcd => he ⟨c, d, hcd⟩
    exact Or.inr ⟨hno, h.kept a m hno⟩

theorem Step.clock_le (h : Step B l B') (hm : Monotone B l) (a m : ν) :
    B.clock a m ≤ B'.clock a m := by
  obtain ⟨c, d, he, hc, -⟩ | ⟨-, hc, -⟩ := h.entry_cases a m
  · rw [hc]; exact hm a m c d he
  · exact hc

theorem Step.heard_le (h : Step B l B') (a m : ν) : B.heard a m ≤ B'.heard a m := by
  obtain hh | ⟨g, _, _, -, -, -, -, hh⟩ := h.heard a m
  · exact le_of_eq hh.symm
  · rw [hh]; exact le_max_left _ _

/-- No clock in a message or a record is above the clock of the party it came from. -/
structure Bounded (B : Board ν μ κ) : Prop where
  gossips : ∀ g ∈ B.gossips, g.clock ≤ B.clock g.sender g.about
  receipts : ∀ t ∈ B.receipts, t.clock ≤ B.clock t.receiver t.about
  known : ∀ a b m k, B.known a b m = some k → k ≤ B.clock a m

theorem Bounded.step (hb : Bounded B) (h : Step B l B') (hm : Monotone B l) : Bounded B' where
  gossips := by
    intro g hg
    obtain hg | ⟨hc, -⟩ := h.gossips g hg
    · exact le_trans (hb.gossips g hg) (h.clock_le hm _ _)
    · exact le_of_eq hc
  receipts := by
    intro t ht
    obtain ht | ⟨g, c, d, hl, rfl⟩ := h.receipts t ht
    · exact le_trans (hb.receipts t ht) (h.clock_le hm _ _)
    · exact le_trans (hb.gossips g (h.taken g c d hl)) (h.clock_le hm _ _)
  known := by
    intro a b m k hk
    refine le_trans ?_ (h.clock_le hm a m)
    obtain hk | hl := h.known a b m k hk
    · exact hb.known a b m k hk
    · exact hb.receipts _ (h.learned _ hl)

structure Held (B : Board ν μ κ) : Prop where
  receipts : ∀ t ∈ B.receipts, t.about ≠ t.sender → t.clock ≤ B.clock t.sender t.about
  known : ∀ a b m k, B.known a b m = some k → m ≠ b → k ≤ B.clock b m

theorem Held.step (hh : Held B) (h : Step B l B') (hm : Monotone B l) (hs : Stores B l) :
    Held B' where
  receipts := by
    intro t ht hne
    obtain ht | ⟨g, c, d, hl, rfl⟩ := h.receipts t ht
    · exact le_trans (hh.receipts t ht hne) (h.clock_le hm _ _)
    · have hw := h.written g.receiver g.about c d (by rw [hl]; rfl)
      show g.clock ≤ B'.clock g.receiver g.about
      rw [hw.1]
      exact hs g c d hl hne
  known := by
    intro a b m k hk hne
    refine le_trans ?_ (h.clock_le hm b m)
    obtain hk | hl := h.known a b m k hk
    · exact hh.known a b m k hk hne
    · exact hh.receipts _ (h.learned _ hl) hne

end Rules

end Rumor
