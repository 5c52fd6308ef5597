import Mathlib.Computability.Language

/-!
# The grammar of a URI in origin form

The productions of RFC 3986 that a path and a query consist of, as languages of bytes.
-/

namespace UriGrammar
open Computability

/-- The byte of an ASCII character. -/
def octet (c : Char) : UInt8 := UInt8.ofNat c.toNat

/-- The words of one byte. -/
def oneOf (p : UInt8 → Prop) : Language UInt8 := {word | ∃ b, word = [b] ∧ p b}

def IsAlpha (b : UInt8) : Prop :=
  (octet 'A' ≤ b ∧ b ≤ octet 'Z') ∨ (octet 'a' ≤ b ∧ b ≤ octet 'z')

def IsDigit (b : UInt8) : Prop := octet '0' ≤ b ∧ b ≤ octet '9'

def IsHexdig (b : UInt8) : Prop :=
  IsDigit b ∨ (octet 'A' ≤ b ∧ b ≤ octet 'F') ∨ (octet 'a' ≤ b ∧ b ≤ octet 'f')

def IsUnreserved (b : UInt8) : Prop := IsAlpha b ∨ IsDigit b ∨ b ∈ "-._~".toList.map octet

def IsSubDelim (b : UInt8) : Prop := b ∈ "!$&'()*+,;=".toList.map octet

def pctEncoded : Language UInt8 :=
  oneOf (· = octet '%') * (oneOf IsHexdig * oneOf IsHexdig)

def pchar : Language UInt8 :=
  oneOf IsUnreserved + pctEncoded + oneOf IsSubDelim + oneOf (· = octet ':') + oneOf (· = octet '@')

/-- What the path and the query of a URI are made of. -/
def piece : Language UInt8 := oneOf (· = octet '/') + oneOf (· = octet '?') + pchar

/-- A slash and any sequence of pieces. -/
def originForm : Language UInt8 := oneOf (· = octet '/') * piece∗

variable {l : Language UInt8} {word rest : List UInt8} {b first second : UInt8}

theorem append_mem_kstar (hword : word ∈ l) (hrest : rest ∈ l∗) : word ++ rest ∈ l∗ := by
  obtain ⟨words, rfl, hwords⟩ := Language.mem_kstar.mp hrest
  exact Language.mem_kstar.mpr ⟨word :: words, rfl, List.forall_mem_cons.mpr ⟨hword, hwords⟩⟩

/-- The bytes that stand for themselves. -/
def IsPlain (b : UInt8) : Prop :=
  b = octet '/' ∨ b = octet '?' ∨ IsUnreserved b ∨ IsSubDelim b ∨ b = octet ':' ∨ b = octet '@'

theorem mem_oneOf {p : UInt8 → Prop} : word ∈ oneOf p ↔ ∃ b, word = [b] ∧ p b := Iff.rfl

theorem mem_pctEncoded :
    word ∈ pctEncoded ↔
      ∃ first second, word = [octet '%', first, second] ∧ IsHexdig first ∧ IsHexdig second := by
  constructor
  · intro h
    obtain ⟨_, ⟨_, rfl, rfl⟩, _, hdigits, rfl⟩ := Language.mem_mul.mp h
    obtain ⟨_, ⟨first, rfl, hfirst⟩, _, ⟨second, rfl, hsecond⟩, rfl⟩ :=
      Language.mem_mul.mp hdigits
    exact ⟨first, second, rfl, hfirst, hsecond⟩
  · rintro ⟨first, second, rfl, hfirst, hsecond⟩
    have hdigits : [first, second] ∈ oneOf IsHexdig * oneOf IsHexdig :=
      Language.mem_mul.mpr ⟨[first], ⟨first, rfl, hfirst⟩, [second], ⟨second, rfl, hsecond⟩, rfl⟩
    exact Language.mem_mul.mpr ⟨[octet '%'], ⟨_, rfl, rfl⟩, _, hdigits, rfl⟩

/-- A piece is a byte that stands for itself or an escape. -/
theorem mem_piece :
    word ∈ piece ↔ (∃ b, word = [b] ∧ IsPlain b) ∨
      ∃ first second, word = [octet '%', first, second] ∧ IsHexdig first ∧ IsHexdig second := by
  rw [← mem_pctEncoded]
  simp only [piece, pchar, Language.mem_add, mem_oneOf, IsPlain, and_or_left, exists_or]
  grind

theorem mem_originForm : word ∈ originForm ↔ ∃ rest ∈ piece∗, word = octet '/' :: rest := by
  constructor
  · intro h
    obtain ⟨_, ⟨_, rfl, rfl⟩, rest, hrest, rfl⟩ := Language.mem_mul.mp h
    exact ⟨rest, hrest, rfl⟩
  · rintro ⟨rest, hrest, rfl⟩
    exact Language.mem_mul.mpr ⟨[octet '/'], ⟨_, rfl, rfl⟩, rest, hrest, rfl⟩

end UriGrammar
