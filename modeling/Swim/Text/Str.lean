import Mathlib.Algebra.Group.Nat.Defs
import Mathlib.Data.List.DropRight

/-!
# Swim.Text.Str

Strings of characters as an interpreter with unbounded integers splits, prints and reads them.

* `rpartition` — the parts of a string before and after the last separator.
* `str`, `int` — printing an integer, and reading one as the language does: with white space around
  it, a sign, and any decimal digits of Unicode, possibly with underscores between them. A limit on
  the number of digits may be set; both fail beyond it.
* `int_str`, `str_of_int` — what was printed is read back, and what was read can be printed.
-/

namespace Text

section Partition

variable {α : Type*} [DecidableEq α] {sep : α} {s head tail : List α}

def splitLast (sep : α) : List α → Option (List α × List α)
  | [] => none
  | c :: s =>
    match splitLast sep s with
    | some (head, tail) => some (c :: head, tail)
    | none => if c = sep then some ([], s) else none

/-- Before the last separator, the separator, and after it; without a separator the first two parts
are empty. -/
def rpartition (sep : α) (s : List α) : List α × List α × List α :=
  match splitLast sep s with
  | some (head, tail) => (head, [sep], tail)
  | none => ([], [], s)

theorem splitLast_of_not_mem (h : sep ∉ s) : splitLast sep s = none := by
  induction s with
  | nil => rfl
  | cons c s ih =>
    have hc : c ≠ sep := fun heq => h (heq ▸ List.mem_cons_self)
    have hs : sep ∉ s := fun hmem => h (List.mem_cons_of_mem _ hmem)
    rw [splitLast, ih hs]
    exact if_neg hc

theorem splitLast_append (h : sep ∉ tail) : splitLast sep (head ++ sep :: tail) =
    some (head, tail) := by
  induction head with
  | nil =>
    rw [List.nil_append, splitLast, splitLast_of_not_mem h]
    exact if_pos rfl
  | cons c head ih => rw [List.cons_append, splitLast, ih]

theorem rpartition_of_not_mem (h : sep ∉ s) : rpartition sep s = ([], [], s) := by
  rw [rpartition, splitLast_of_not_mem h]

theorem rpartition_append (h : sep ∉ tail) :
    rpartition sep (head ++ sep :: tail) = (head, [sep], tail) := by
  rw [rpartition, splitLast_append h]

end Partition

/-! ## Integers -/

/-- The digits zero of Unicode 14; the other nine follow each. -/
def zeros : List Nat :=
  [0x30, 0x660, 0x6F0, 0x7C0, 0x966, 0x9E6, 0xA66, 0xAE6, 0xB66, 0xBE6, 0xC66, 0xCE6, 0xD66, 0xDE6,
    0xE50, 0xED0, 0xF20, 0x1040, 0x1090, 0x17E0, 0x1810, 0x1946, 0x19D0, 0x1A80, 0x1A90, 0x1B50,
    0x1BB0, 0x1C40, 0x1C50, 0xA620, 0xA8D0, 0xA900, 0xA9D0, 0xA9F0, 0xAA50, 0xABF0, 0xFF10, 0x104A0,
    0x10D30, 0x11066, 0x110F0, 0x11136, 0x111D0, 0x112F0, 0x11450, 0x114D0, 0x11650, 0x116C0,
    0x11730, 0x118E0, 0x11950, 0x11C50, 0x11D50, 0x11DA0, 0x16A60, 0x16AC0, 0x16B50, 0x1D7CE,
    0x1D7D8, 0x1D7E2, 0x1D7EC, 0x1D7F6, 0x1E140, 0x1E2F0, 0x1E950, 0x1FBF0]

def decimal (c : Char) : Option Nat :=
  (zeros.find? fun z => z ≤ c.toNat && c.toNat < z + 10).map fun z => c.toNat - z

/-- The white space that may surround an integer. -/
def isSpace (c : Char) : Bool :=
  let n := c.toNat
  (9 ≤ n && n ≤ 13) || n == 0x20 || n == 0x85 || n == 0xA0 || n == 0x1680 ||
    (0x2000 ≤ n && n ≤ 0x200A) || n == 0x2028 || n == 0x2029 || n == 0x202F || n == 0x205F ||
    n == 0x3000

def strip (s : List Char) : List Char := (s.dropWhile isSpace).rdropWhile isSpace

/-- The rest of a number of which the digits so far are worth `value`. -/
def digitsFrom : Nat → List Char → Option Nat
  | value, [] => some value
  | value, '_' :: c :: s => (decimal c).bind fun d => digitsFrom (10 * value + d) s
  | value, c :: s => (decimal c).bind fun d => digitsFrom (10 * value + d) s

def digits : List Char → Option Nat
  | [] => none
  | c :: s => (decimal c).bind fun d => digitsFrom d s

def within (limit : Option Nat) (count : Nat) : Bool := limit.all (count ≤ ·)

def natural (limit : Option Nat) (s : List Char) : Option Nat :=
  if within limit (s.filter (· != '_')).length then digits s else none

def sign : List Char → Bool × List Char
  | '-' :: s => (true, s)
  | '+' :: s => (false, s)
  | s => (false, s)

/-- `int(s)`; `none` is `ValueError`. -/
def int (limit : Option Nat) (s : List Char) : Option Int :=
  let (negative, s) := sign (strip s)
  (natural limit s).map fun n : Nat => if negative then -(n : Int) else (n : Int)

/-- `str(p)`; `none` is `ValueError`. -/
def str (limit : Option Nat) (p : Int) : Option (List Char) :=
  let s := Nat.toDigits 10 p.natAbs
  if within limit s.length then some (if p < 0 then '-' :: s else s) else none

section Digits

variable {s : List Char} {c : Char} {limit : Option Nat} {p : Int}

theorem isDigit_bounds (h : c.isDigit = true) : 48 ≤ c.toNat ∧ c.toNat ≤ 57 := by
  have hc : 48 ≤ c.val ∧ c.val ≤ 57 := by simpa [Char.isDigit] using h
  exact ⟨UInt32.le_iff_toNat_le.mp hc.1, UInt32.le_iff_toNat_le.mp hc.2⟩

theorem decimal_of_isDigit (h : c.isDigit = true) : decimal c = some (c.toNat - 48) := by
  have hc := isDigit_bounds h
  have hfirst : (decide (0x30 ≤ c.toNat) && decide (c.toNat < 0x30 + 10)) = true := by
    simp only [Bool.and_eq_true, decide_eq_true_eq]
    omega
  rw [decimal, zeros, List.find?_cons, hfirst, Option.map_some]

theorem isSpace_of_isDigit (h : c.isDigit = true) : isSpace c = false := by
  have hc := isDigit_bounds h
  rw [isSpace]
  simp
  omega

theorem digitsFrom_eq (h : ∀ c ∈ s, c.isDigit = true) (value : Nat) :
    digitsFrom value s = some (Nat.ofDigitChars 10 s value) := by
  induction s generalizing value with
  | nil => rfl
  | cons c s ih =>
    have hc := h c List.mem_cons_self
    have hstep : digitsFrom value (c :: s) =
        (decimal c).bind fun d => digitsFrom (10 * value + d) s := by
      have hne : c ≠ '_' := by
        rintro rfl
        cases hc
      cases s with
      | nil => rw [digitsFrom]; simp
      | cons c' s => rw [digitsFrom]; simp [hne]
    rw [hstep, decimal_of_isDigit hc, Option.bind_some,
      ih fun k hk => h k (List.mem_cons_of_mem _ hk), Nat.ofDigitChars_cons]
    rfl

/-- A printed number is read back. -/
theorem digits_toDigits (n : Nat) : digits (Nat.toDigits 10 n) = some n := by
  have hall : ∀ c ∈ Nat.toDigits 10 n, c.isDigit = true := fun c hc =>
    Nat.isDigit_of_mem_toDigits (by decide) (by decide) hc
  have hvalue := @Nat.ofDigitChars_ten_toDigits n
  cases hs : Nat.toDigits 10 n with
  | nil => exact absurd hs Nat.toDigits_ne_nil
  | cons c s =>
    rw [hs] at hall hvalue
    rw [digits, decimal_of_isDigit (hall c List.mem_cons_self), Option.bind_some,
      digitsFrom_eq fun k hk => hall k (List.mem_cons_of_mem _ hk)]
    rw [Nat.ofDigitChars_cons] at hvalue
    simpa using hvalue

theorem strip_eq_self (h : ∀ c ∈ s, isSpace c = false) : strip s = s := by
  have hdrop : s.dropWhile isSpace = s := by
    rw [List.dropWhile_eq_self_iff]
    intro hlen hspace
    rw [h _ (List.getElem_mem _)] at hspace
    cases hspace
  rw [strip, hdrop, List.rdropWhile_eq_self_iff]
  intro hne hspace
  rw [h _ (List.getLast_mem hne)] at hspace
  cases hspace

theorem str_eq_some : str limit p = some s ↔
    within limit (Nat.toDigits 10 p.natAbs).length = true ∧
      s = if p < 0 then '-' :: Nat.toDigits 10 p.natAbs else Nat.toDigits 10 p.natAbs := by
  rw [str, Option.ite_none_right_eq_some, Option.some_inj]
  exact and_congr_right fun _ => eq_comm

theorem str_eq_none :
    str limit p = none ↔ ¬ within limit (Nat.toDigits 10 p.natAbs).length = true := by
  rw [str, ite_eq_right_iff]
  simp

theorem str_chars (h : str limit p = some s) : ∀ c ∈ s, c.isDigit = true ∨ c = '-' := by
  obtain ⟨-, rfl⟩ := str_eq_some.mp h
  have hall : ∀ c ∈ Nat.toDigits 10 p.natAbs, c.isDigit = true := fun c hc =>
    Nat.isDigit_of_mem_toDigits (by decide) (by decide) hc
  intro c hc
  split at hc
  · obtain rfl | hc := List.mem_cons.mp hc
    · exact Or.inr rfl
    · exact Or.inl (hall c hc)
  · exact Or.inl (hall c hc)

theorem natural_toDigits {n : Nat} (h : within limit (Nat.toDigits 10 n).length = true) :
    natural limit (Nat.toDigits 10 n) = some n := by
  have hfilter : (Nat.toDigits 10 n).filter (· != '_') = Nat.toDigits 10 n := by
    rw [List.filter_eq_self]
    rintro c hc
    have hne : c ≠ '_' := fun heq => Nat.underscore_not_in_toDigits (heq ▸ hc)
    simpa using hne
  rw [natural, hfilter, if_pos h, digits_toDigits]

theorem sign_toDigits (n : Nat) : sign (Nat.toDigits 10 n) = (false, Nat.toDigits 10 n) := by
  unfold sign
  split
  · rename_i s hs
    have hminus : ('-' : Char).isDigit = true :=
      Nat.isDigit_of_mem_toDigits (by decide) (by decide) (hs ▸ List.mem_cons_self)
    cases hminus
  · rename_i s hs
    have hplus : ('+' : Char).isDigit = true :=
      Nat.isDigit_of_mem_toDigits (by decide) (by decide) (hs ▸ List.mem_cons_self)
    cases hplus
  · rfl

/-- **What was printed is read back.** -/
theorem int_str (h : str limit p = some s) : int limit s = some p := by
  have hspace : ∀ c ∈ s, isSpace c = false := by
    intro c hc
    obtain hdigit | rfl := str_chars h c hc
    · exact isSpace_of_isDigit hdigit
    · rfl
  obtain ⟨hwithin, hs⟩ := str_eq_some.mp h
  rw [int, strip_eq_self hspace, hs]
  by_cases hneg : p < 0
  · rw [if_pos hneg]
    simp only [sign, natural_toDigits hwithin, Option.map_some, if_true, Option.some_inj]
    omega
  · rw [if_neg hneg, sign_toDigits]
    simp only [natural_toDigits hwithin, Option.map_some, Bool.false_eq_true, if_false,
      Option.some_inj]
    omega

theorem decimal_lt {d : Nat} (h : decimal c = some d) : d < 10 := by
  obtain ⟨z, hz, rfl⟩ := Option.map_eq_some_iff.mp h
  have hbounds := List.find?_some hz
  simp only [Bool.and_eq_true, decide_eq_true_eq] at hbounds
  omega

theorem length_filter_decimal {d : Nat} (h : decimal c = some d) :
    ((c :: s).filter (· != '_')).length = (s.filter (· != '_')).length + 1 := by
  have hne : c ≠ '_' := by
    rintro rfl
    rw [show decimal '_' = none by decide] at h
    cases h
  simp [hne]

theorem digitsFrom_lt {n : Nat} : ∀ {s : List Char} {value k : Nat}, value < 10 ^ k →
    digitsFrom value s = some n → n < 10 ^ (k + (s.filter (· != '_')).length) := by
  intro s value k hvalue h
  fun_induction digitsFrom value s generalizing k with
  | case1 value =>
    cases h
    exact hvalue
  | case2 value c s ih =>
    obtain ⟨d, hd, h⟩ := Option.bind_eq_some_iff.mp h
    have hlt : 10 * value + d < 10 ^ (k + 1) := by
      have := decimal_lt hd
      rw [Nat.pow_succ]
      omega
    have hn := ih d hlt h
    rw [List.filter_cons_of_neg (by decide), length_filter_decimal hd]
    rwa [Nat.add_right_comm] at hn
  | case3 value c s hne ih =>
    obtain ⟨d, hd, h⟩ := Option.bind_eq_some_iff.mp h
    have hlt : 10 * value + d < 10 ^ (k + 1) := by
      have := decimal_lt hd
      rw [Nat.pow_succ]
      omega
    have hn := ih d hlt h
    rw [length_filter_decimal hd]
    rwa [Nat.add_right_comm] at hn

theorem within_mono {m n : Nat} (h : within limit n = true) (hmn : m ≤ n) :
    within limit m = true := by
  cases limit with
  | none => rfl
  | some bound => exact decide_eq_true (hmn.trans (of_decide_eq_true h))

theorem within_of_natural {n : Nat} (h : natural limit s = some n) :
    within limit (Nat.toDigits 10 n).length = true := by
  rw [natural] at h
  split at h
  · rename_i hwithin
    refine within_mono hwithin ?_
    cases s with
    | nil => cases h
    | cons c s =>
      obtain ⟨d, hd, h⟩ := Option.bind_eq_some_iff.mp h
      have hn := digitsFrom_lt (k := 1) (decimal_lt hd) h
      rw [length_filter_decimal hd]
      rw [Nat.add_comm] at hn
      exact (Nat.length_toDigits_le_iff (by decide) (Nat.succ_pos _)).mpr hn
  · cases h

theorem str_of_int (h : int limit s = some p) : ∃ t, str limit p = some t := by
  unfold int at h
  generalize sign (strip s) = signed at h
  obtain ⟨n, hn, hp⟩ := Option.map_eq_some_iff.mp h
  have habs : p.natAbs = n := by
    split at hp <;> omega
  rw [str, habs, if_pos (within_of_natural hn)]
  exact ⟨_, rfl⟩

/-- No two integers are printed alike. -/
theorem str_inj {limit' : Option Nat} {q : Int} (hp : str limit p = some s)
    (hq : str limit' q = some s) : p = q := by
  have hnone : ∀ {limit : Option Nat} {p : Int}, str limit p = some s → int none s = some p :=
    fun h => int_str (str_eq_some.mpr ⟨rfl, (str_eq_some.mp h).2⟩)
  exact Option.some.inj ((hnone hp).symm.trans (hnone hq))

end Digits

end Text
