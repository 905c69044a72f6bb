import Swim.Basic
import Swim.Text.Str

/-!
# Swim.Address

`swimprotocol.address`: addresses for socket connections, and the parser that completes them.

* `Address`, `Address.str` — an address and how it prints.
* `AddressParser`, `parse` — what is missing from an address string is taken from the defaults.
* `parse_iff` — printing an address is inverted and a missing host is completed, always; a missing
  port is completed never: `rpartition` leaves a string without a separator as its third part.

`digitLimit` is the limit of the interpreter on the digits of an integer in a string.
-/

namespace Swim

structure Address where
  host : String
  port : Int
  deriving DecidableEq

def Address.str (digitLimit : Option Nat) (address : Address) : Except PyError String :=
  match Text.str digitLimit address.port with
  | some port => .ok (address.host ++ ":" ++ String.ofList port)
  | none => .error .value

/-- `addressType` makes the addresses; `Address.mk` unless it is overridden. -/
structure AddressParser (α : Type) where
  addressType : String → Int → α
  defaultHost : Option String
  defaultPort : Option Int

namespace AddressParser

variable {α : Type}

/-- `self.address_type(host, int(port))`. -/
def make (self : AddressParser α) (digitLimit : Option Nat) (host : String) (port : List Char) :
    Except PyError α :=
  match Text.int digitLimit port with
  | some port => .ok (self.addressType host port)
  | none => .error .value

def parse (self : AddressParser α) (digitLimit : Option Nat) (address : String) :
    Except PyError α :=
  let (host, sep, port) := Text.rpartition ':' address.toList
  if sep ≠ [':'] then
    match self.defaultPort with
    | some defaultPort => .ok (self.addressType (String.ofList host) defaultPort)
    | none => .error .value
  else if host ≠ [] then self.make digitLimit (String.ofList host) port
  else
    match self.defaultHost with
    | some defaultHost => self.make digitLimit defaultHost port
    | none => .error .value

def plain (defaultHost : Option String) (defaultPort : Option Int) : AddressParser Address :=
  ⟨Address.mk, defaultHost, defaultPort⟩

/-- What an address string may give: both parts, only the port, or only the host. -/
inductive Given where
  | full (host : String) (port : Int) (named : host ≠ "")
  | portOnly (port : Int)
  | hostOnly (host : String) (named : host ≠ "") (bare : ':' ∉ host.toList)

namespace Given

/-- The string; printing fails on a port with too many digits. -/
def text (digitLimit : Option Nat) : Given → Except PyError String
  | full host port _ => Address.str digitLimit ⟨host, port⟩
  | portOnly port =>
    match Text.str digitLimit port with
    | some port => .ok (":" ++ String.ofList port)
    | none => .error .value
  | hostOnly host _ _ => .ok host

/-- The address that is meant, completed with the defaults. -/
def meant (defaultHost : Option String) (defaultPort : Option Int) : Given → Except PyError Address
  | full host port _ => .ok ⟨host, port⟩
  | portOnly port => defaultHost.elim (.error .value) fun host => .ok ⟨host, port⟩
  | hostOnly host _ _ => defaultPort.elim (.error .value) fun port => .ok ⟨host, port⟩

/-- The port, if the string has one, has no more digits than the interpreter converts. -/
def fits (digitLimit : Option Nat) : Given → Prop
  | full _ port _ | portOnly port =>
    Text.within digitLimit (Nat.toDigits 10 port.natAbs).length = true
  | hostOnly _ _ _ => True

def noPort : Given → Prop
  | full _ _ _ | portOnly _ => False
  | hostOnly _ _ _ => True

end Given

section Parse

variable {parser : AddressParser α} {digitLimit : Option Nat} {host : String} {port : Int}
  {s : List Char}

theorem colon_not_mem (h : Text.str digitLimit port = some s) : ':' ∉ s := by
  intro hmem
  obtain hdigit | hminus := Text.str_chars h _ hmem
  · cases hdigit
  · cases hminus

theorem str_eq_ok {address : Address} {text : String} :
    address.str digitLimit = .ok text ↔ ∃ s, Text.str digitLimit address.port = some s ∧
      text = address.host ++ ":" ++ String.ofList s := by
  rw [Address.str]
  cases Text.str digitLimit address.port with
  | none => simp
  | some s => simp [eq_comm]

theorem str_inj {limit : Option Nat} {a b : Address} {text : String}
    (ha : a.str digitLimit = .ok text) (hb : b.str limit = .ok text) : a = b := by
  obtain ⟨s, hs, htext⟩ := str_eq_ok.mp ha
  obtain ⟨t, ht, rfl⟩ := str_eq_ok.mp hb
  have hparts : (b.host.toList, [':'], t) = (a.host.toList, [':'], s) := by
    rw [← Text.rpartition_append (colon_not_mem ht), ← Text.rpartition_append (colon_not_mem hs)]
    have hlist := congrArg String.toList htext
    simp only [String.toList_append, String.toList_ofList] at hlist
    simpa using congrArg (Text.rpartition ':') hlist
  obtain ⟨hhost, -, rfl⟩ := by simpa only [Prod.mk.injEq] using hparts
  obtain ⟨host, port⟩ := a
  obtain ⟨host', port'⟩ := b
  dsimp only at hs ht hhost
  rw [String.toList_inj.mp hhost, Text.str_inj hs ht]

/-- The last colon is the one before the port, also if the host has some. -/
theorem parse_colon (h : Text.str digitLimit port = some s) :
    parser.parse digitLimit (host ++ ":" ++ String.ofList s) =
      if host ≠ "" then .ok (parser.addressType host port)
      else parser.defaultHost.elim (.error .value) fun host =>
        .ok (parser.addressType host port) := by
  have hlist : (host ++ ":" ++ String.ofList s).toList = host.toList ++ ':' :: s := by
    simp
  have hmake : ∀ host, parser.make digitLimit host s = .ok (parser.addressType host port) := by
    intro host
    rw [make, Text.int_str h]
  have hempty : host.toList ≠ [] ↔ host ≠ "" := by simp
  unfold parse
  rw [hlist, Text.rpartition_append (colon_not_mem h)]
  simp only [ne_eq, not_true_eq_false, if_false, hmake, String.ofList_toList, hempty]
  by_cases hhost : host = ""
  · rw [if_neg (not_not.mpr hhost), if_neg (not_not.mpr hhost)]
    cases parser.defaultHost <;> rfl
  · rw [if_pos hhost, if_pos hhost]

/-- Without a colon the first part is empty, and that is the host the address gets. -/
theorem parse_bare (h : ':' ∉ host.toList) : parser.parse digitLimit host =
    parser.defaultPort.elim (.error .value) fun port => .ok (parser.addressType "" port) := by
  unfold parse
  rw [Text.rpartition_of_not_mem h]
  dsimp only
  rw [if_pos (by simp)]
  cases parser.defaultPort <;> rfl

/-- The port of what was parsed can be printed, unless it is a default that cannot. -/
theorem parse_printed {defaultHost : Option String} {defaultPort : Option Int} {text : String}
    {address : Address} (h : (plain defaultHost defaultPort).parse digitLimit text = .ok address)
    (hdefault : ∀ p, defaultPort = some p → ∃ s, Text.str digitLimit p = some s) :
    ∃ s, Text.str digitLimit address.port = some s := by
  have hmake : ∀ {host : String} {s : List Char},
      (plain defaultHost defaultPort).make digitLimit host s = .ok address →
        ∃ s, Text.str digitLimit address.port = some s := by
    intro host s h
    rw [make] at h
    split at h
    · rename_i p hp
      cases h
      exact Text.str_of_int hp
    · cases h
  unfold parse at h
  dsimp only at h
  split at h
  · split at h
    · rename_i p hp
      cases h
      exact hdefault p hp
    · cases h
  · split at h
    · exact hmake h
    · split at h
      · exact hmake h
      · cases h

end Parse

/-- **Completing an address** gives what is meant, for a port that can be printed, exactly if the
string has a port or there is no default for it. -/
theorem parse_iff (digitLimit : Option Nat) (defaultHost : Option String)
    (defaultPort : Option Int) (given : Given) :
    (∃ text, given.text digitLimit = .ok text ∧
      (plain defaultHost defaultPort).parse digitLimit text =
        given.meant defaultHost defaultPort) ↔
      given.fits digitLimit ∧ (given.noPort → defaultPort = none) := by
  cases given with
  | full host port named =>
    cases hs : Text.str digitLimit port with
    | none =>
      refine iff_of_false ?_ fun h => Text.str_eq_none.mp hs h.1
      rintro ⟨text, htext, -⟩
      rw [Given.text, Address.str, hs] at htext
      cases htext
    | some s =>
      refine iff_of_true ⟨host ++ ":" ++ String.ofList s, ?_, ?_⟩
        ⟨(Text.str_eq_some.mp hs).1, False.elim⟩
      · rw [Given.text, Address.str, hs]
      · rw [parse_colon hs, if_pos named]; rfl
  | portOnly port =>
    cases hs : Text.str digitLimit port with
    | none =>
      refine iff_of_false ?_ fun h => Text.str_eq_none.mp hs h.1
      rintro ⟨text, htext, -⟩
      rw [Given.text, hs] at htext
      cases htext
    | some s =>
      refine iff_of_true ⟨":" ++ String.ofList s, ?_, ?_⟩
        ⟨(Text.str_eq_some.mp hs).1, False.elim⟩
      · rw [Given.text, hs]
      · have hparse := @parse_colon _ (plain defaultHost defaultPort) digitLimit "" port s hs
        rw [String.empty_append, if_neg (not_not.mpr rfl)] at hparse
        exact hparse
  | hostOnly host named bare =>
    have hparse := @parse_bare _ (plain defaultHost defaultPort) digitLimit host bare
    constructor
    · rintro ⟨text, htext, heq⟩
      cases htext
      refine ⟨trivial, fun _ => ?_⟩
      rw [hparse] at heq
      cases defaultPort with
      | none => rfl
      | some port => exact absurd (Address.mk.inj (Except.ok.inj heq)).1.symm named
    · rintro ⟨-, hnone⟩
      refine ⟨host, rfl, ?_⟩
      rw [hparse]
      cases hnone trivial
      rfl

def bareHost : Given := .hostOnly "example.tld" (by decide) (by decide)

theorem not_parse : ¬ ∀ (digitLimit : Option Nat) (defaultHost : Option String)
    (defaultPort : Option Int) (given : Given) (text : String),
    given.text digitLimit = .ok text → (plain defaultHost defaultPort).parse digitLimit text =
      given.meant defaultHost defaultPort := by
  intro h
  have hparse := h none none (some 1234) bareHost "example.tld" rfl
  have hgot : (plain none (some 1234)).parse none "example.tld" = .ok ⟨"", 1234⟩ := by
    decide +kernel
  rw [hgot] at hparse
  exact absurd (Address.mk.inj (Except.ok.inj hparse)).1 (by decide)

end AddressParser

end Swim
