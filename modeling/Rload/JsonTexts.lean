import Rload.JsonDocuments
import Rload.TextScanning

/-!
# JSON texts

The value that a text denotes. White space may stand between the tokens, and an object has all of
its members in their order.
-/

namespace Rload.JsonTexts
open JsonDocuments TextScanning

/-- The character that a letter stands for behind a backslash. -/
def unescape (c : Char) : Option Char :=
  if c = '"' ∨ c = '\\' ∨ c = '/' then some c
  else if c = 'b' then some '\x08'
  else if c = 'f' then some '\x0c'
  else if c = 'n' then some '\n'
  else if c = 'r' then some '\r'
  else if c = 't' then some '\t'
  else none

def prepend (c : Char) : Option (List Char × List Char) → Option (List Char × List Char) :=
  Option.map fun p => (c :: p.1, p.2)

/-- The number of four hexadecimal digits. -/
def codeUnit (digits : List Char) : Option ℕ := numeral 16 digits

def isHighSurrogate (unit : ℕ) : Bool := 0xD800 ≤ unit && unit ≤ 0xDBFF

def isLowSurrogate (unit : ℕ) : Bool := 0xDC00 ≤ unit && unit ≤ 0xDFFF

/-- A string behind its opening quote, and what follows it. -/
def readString : List Char → Option (List Char × List Char)
  | [] => none
  | '"' :: rest => some ([], rest)
  | '\\' :: 'u' :: a :: b :: c :: d :: rest =>
    (codeUnit [a, b, c, d]).bind fun unit =>
      if isHighSurrogate unit then
        match rest with
        | '\\' :: 'u' :: a :: b :: c :: d :: rest =>
          ((codeUnit [a, b, c, d]).filter isLowSurrogate).bind fun low =>
            prepend (Char.ofNat (0x10000 + (unit - 0xD800) * 0x400 + (low - 0xDC00)))
              (readString rest)
        | _ => none
      else if isLowSurrogate unit then none
      else prepend (Char.ofNat unit) (readString rest)
  | '\\' :: c :: rest => (unescape c).bind fun c => prepend c (readString rest)
  | c :: rest => if c.toNat < 32 ∨ c = '\\' then none else prepend c (readString rest)

def isDigit (c : Char) : Bool := 48 ≤ c.toNat && c.toNat ≤ 57

def isNumberChar (c : Char) : Bool :=
  isDigit c || c = '-' || c = '+' || c = '.' || c = 'e' || c = 'E'

def stripSign : List Char → List Char
  | '-' :: cs => cs
  | '+' :: cs => cs
  | cs => cs

def isExponent : List Char → Bool
  | [] => true
  | c :: cs => (c = 'e' || c = 'E') && stripSign cs ≠ [] && (stripSign cs).all isDigit

def isFraction : List Char → Bool
  | '.' :: cs => cs.takeWhile isDigit ≠ [] && isExponent (cs.dropWhile isDigit)
  | cs => isExponent cs

/-- Digits with no zero in front of others, a fraction and an exponent. -/
def isUnsigned (cs : List Char) : Bool :=
  let whole := cs.takeWhile isDigit
  (whole = ['0'] || (whole ≠ [] && whole.head? ≠ some '0')) && isFraction (cs.dropWhile isDigit)

def isNumber : List Char → Bool
  | '-' :: cs => isUnsigned cs
  | cs => isUnsigned cs

def isSpace (c : Char) : Bool := c = ' ' || c = '\t' || c = '\n' || c = '\r'

def skipSpaces (cs : List Char) : List Char := cs.dropWhile isSpace

/-- A value that is neither a string nor made of others, and what follows it. -/
def readScalar (cs : List Char) : Option (Value × List Char) :=
  if ['n', 'u', 'l', 'l'].isPrefixOf cs then some (.null, cs.drop 4)
  else if ['t', 'r', 'u', 'e'].isPrefixOf cs then some (.bool true, cs.drop 4)
  else if ['f', 'a', 'l', 's', 'e'].isPrefixOf cs then some (.bool false, cs.drop 5)
  else if isNumber (cs.takeWhile isNumberChar) then
    some (.number (cs.takeWhile isNumberChar), cs.dropWhile isNumberChar)
  else none

/-- A key with its colon, and what follows them. -/
def readKey (cs : List Char) : Option (List Char × List Char) :=
  match skipSpaces cs with
  | '"' :: cs =>
    (readString cs).bind fun (key, rest) =>
      match skipSpaces rest with
      | ':' :: rest => some (key, rest)
      | _ => none
  | _ => none

mutual

/-- A value with the white space around it, and what follows it. -/
def readValue : ℕ → List Char → Option (Value × List Char)
  | 0, _ => none
  | fuel + 1, cs =>
    match skipSpaces cs with
    | '"' :: cs => (readString cs).map fun (text, rest) => (.string text, skipSpaces rest)
    | '[' :: cs =>
      match skipSpaces cs with
      | ']' :: rest => some (.array [], skipSpaces rest)
      | cs => (readItems fuel cs).map fun (items, rest) => (.array items, skipSpaces rest)
    | '{' :: cs =>
      match skipSpaces cs with
      | '}' :: rest => some (.object [], skipSpaces rest)
      | cs => (readMembers fuel cs).map fun (members, rest) => (.object members, skipSpaces rest)
    | cs => (readScalar cs).map fun (value, rest) => (value, skipSpaces rest)

/-- The items of an array up to the bracket behind them. -/
def readItems : ℕ → List Char → Option (List Value × List Char)
  | 0, _ => none
  | fuel + 1, cs =>
    (readValue fuel cs).bind fun (item, rest) =>
      match rest with
      | ',' :: rest => (readItems fuel rest).map fun (items, rest) => (item :: items, rest)
      | ']' :: rest => some ([item], rest)
      | _ => none

def readMembers : ℕ → List Char → Option (List (List Char × Value) × List Char)
  | 0, _ => none
  | fuel + 1, cs =>
    (readKey cs).bind fun (key, rest) =>
      (readValue fuel rest).bind fun (value, rest) =>
        match rest with
        | ',' :: rest =>
          (readMembers fuel rest).map fun (members, rest) => ((key, value) :: members, rest)
        | '}' :: rest => some ([(key, value)], rest)
        | _ => none

end

/-- The value of the whole text. A value takes no more fuel than its text is long. -/
def readText (text : List Char) : Option Value :=
  match readValue (text.length + 1) text with
  | some (value, []) => some value
  | _ => none

attribute [local simp] readString readValue readItems readMembers

theorem readText_eq_some_iff {text : List Char} {value : Value} :
    readText text = some value ↔ readValue (text.length + 1) text = some (value, []) := by
  constructor
  · intro h
    unfold readText at h
    split at h
    · rename_i heq
      cases h
      exact heq
    · cases h
  · intro h
    rw [readText, h]

theorem readString_plain {c : Char} (hquote : c ≠ '"') (hbackslash : c ≠ '\\')
    (hcontrol : 32 ≤ c.toNat) (rest : List Char) :
    readString (c :: rest) = prepend c (readString rest) := by
  have hnot : ¬ (c.toNat < 32 ∨ c = '\\') := by
    simp [hbackslash]
    omega
  rw [readString, if_neg hnot]
  · exact hquote
  · exact fun a b c' d rest' h => absurd h hbackslash
  · exact fun c' rest' h => absurd h hbackslash

theorem readString_escape {c d : Char} (h : unescape c = some d) (rest : List Char) :
    readString ('\\' :: c :: rest) = prepend d (readString rest) := by
  have hu : c ≠ 'u' := by
    rintro rfl
    cases h
  rw [readString, h]
  · rfl
  · exact fun a b c' d' rest' h => absurd h hu

section Units

variable {a b c d : Char} {unit : ℕ} {cs text rest : List Char}

theorem prepend_eq_some {o : Option (List Char × List Char)}
    (h : prepend c o = some (text, rest)) : ∃ tail, o = some (tail, rest) ∧ text = c :: tail := by
  obtain ⟨⟨tail, rest'⟩, ho, heq⟩ := Option.map_eq_some_iff.mp h
  cases heq
  exact ⟨tail, ho, rfl⟩

theorem readString_unit (hunit : codeUnit [a, b, c, d] = some unit)
    (hhigh : isHighSurrogate unit = false) (hlow : isLowSurrogate unit = false) :
    readString ('\\' :: 'u' :: a :: b :: c :: d :: cs) =
      prepend (Char.ofNat unit) (readString cs) := by
  rw [readString, hunit, Option.bind_some, if_neg (by simp [hhigh]), if_neg (by simp [hlow])]

/-- The character of two surrogates. -/
def paired (unit low : ℕ) : Char := Char.ofNat (0x10000 + (unit - 0xD800) * 0x400 + (low - 0xDC00))

theorem readString_pair {a' b' c' d' : Char} {low : ℕ} (hunit : codeUnit [a, b, c, d] = some unit)
    (hhigh : isHighSurrogate unit = true) (hlow : codeUnit [a', b', c', d'] = some low)
    (hsurrogate : isLowSurrogate low = true) :
    readString ('\\' :: 'u' :: a :: b :: c :: d :: '\\' :: 'u' :: a' :: b' :: c' :: d' :: cs) =
      prepend (paired unit low) (readString cs) := by
  rw [readString, hunit, Option.bind_some, if_pos hhigh]
  simp only [hlow, Option.filter_some, hsurrogate, if_true, Option.bind_some]
  rfl

/-- A code unit is a character of its own or the first of a pair. -/
theorem readString_unit_cases
    (h : readString ('\\' :: 'u' :: a :: b :: c :: d :: cs) = some (text, rest)) :
    ∃ unit, codeUnit [a, b, c, d] = some unit ∧
      ((isHighSurrogate unit = false ∧ isLowSurrogate unit = false ∧
          prepend (Char.ofNat unit) (readString cs) = some (text, rest)) ∨
        ∃ a' b' c' d' low more, isHighSurrogate unit = true ∧
          cs = '\\' :: 'u' :: a' :: b' :: c' :: d' :: more ∧
          codeUnit [a', b', c', d'] = some low ∧ isLowSurrogate low = true ∧
          prepend (paired unit low) (readString more) = some (text, rest)) := by
  rw [readString] at h
  obtain ⟨unit, hunit, h⟩ := Option.bind_eq_some_iff.mp h
  refine ⟨unit, hunit, ?_⟩
  cases hhigh : isHighSurrogate unit with
  | true =>
    rw [if_pos hhigh] at h
    split at h
    · rename_i a' b' c' d' more _
      obtain ⟨low, hlow, h⟩ := Option.bind_eq_some_iff.mp h
      obtain ⟨hlow, hsurrogate⟩ := Option.filter_eq_some_iff.mp hlow
      exact .inr ⟨a', b', c', d', low, more, rfl, rfl, hlow, hsurrogate, h⟩
    · cases h
  | false =>
    rw [if_neg (by simp [hhigh])] at h
    split at h
    · cases h
    · rename_i hlow
      exact .inl ⟨rfl, Bool.eq_false_iff.mpr hlow, h⟩

end Units

/-- What starts with none of the three marks is no string, no array and no object. -/
theorem readValue_scalar {c : Char} {cs : List Char} (hspace : isSpace c = false)
    (hquote : c ≠ '"') (hbracket : c ≠ '[') (hbrace : c ≠ '{') (fuel : ℕ) :
    readValue (fuel + 1) (c :: cs) =
      (readScalar (c :: cs)).map fun p => (p.1, skipSpaces p.2) := by
  have hskip : skipSpaces (c :: cs) = c :: cs := by
    rw [skipSpaces, List.dropWhile_cons_of_neg (by simp [hspace])]
  rw [readValue, hskip]
  split
  · rename_i heq
    exact absurd (List.cons.inj heq).1 hquote
  · rename_i heq
    exact absurd (List.cons.inj heq).1 hbracket
  · rename_i heq
    exact absurd (List.cons.inj heq).1 hbrace
  · rfl

theorem isSpace_of_skipSpaces {c : Char} {cs rest : List Char} (h : skipSpaces cs = c :: rest) :
    isSpace c = false := by
  have hhead := List.head?_dropWhile_not isSpace cs
  rw [skipSpaces] at h
  simpa [h] using hhead

theorem readValue_skipSpaces (fuel : ℕ) (cs : List Char) :
    readValue (fuel + 1) (skipSpaces cs) = readValue (fuel + 1) cs := by
  have hskip : skipSpaces (skipSpaces cs) = skipSpaces cs := List.dropWhile_idempotent isSpace cs
  rw [readValue, readValue, hskip]

theorem readValue_string (fuel : ℕ) (cs : List Char) : readValue (fuel + 1) ('"' :: cs) =
    (readString cs).map fun p => (.string p.1, skipSpaces p.2) := by
  rw [readValue]
  rfl

section Parts

variable {fuel : ℕ} {cs rest more : List Char}

theorem readValue_emptyArray (h : skipSpaces cs = ']' :: rest) :
    readValue (fuel + 1) ('[' :: cs) = some (.array [], skipSpaces rest) := by
  have hskip : skipSpaces ('[' :: cs) = '[' :: cs := rfl
  rw [readValue, hskip]
  simp only [h]

theorem readValue_array (hskips : skipSpaces cs = more) (h : more.head? ≠ some ']') :
    readValue (fuel + 1) ('[' :: cs) =
      (readItems fuel more).map fun p => (.array p.1, skipSpaces p.2) := by
  have hskip : skipSpaces ('[' :: cs) = '[' :: cs := rfl
  rw [readValue, hskip]
  simp only [hskips]
  split
  · exact absurd rfl h
  · rfl

theorem readValue_emptyObject (h : skipSpaces cs = '}' :: rest) :
    readValue (fuel + 1) ('{' :: cs) = some (.object [], skipSpaces rest) := by
  have hskip : skipSpaces ('{' :: cs) = '{' :: cs := rfl
  rw [readValue, hskip]
  simp only [h]

theorem readValue_object (hskips : skipSpaces cs = more) (h : more.head? ≠ some '}') :
    readValue (fuel + 1) ('{' :: cs) =
      (readMembers fuel more).map fun p => (.object p.1, skipSpaces p.2) := by
  have hskip : skipSpaces ('{' :: cs) = '{' :: cs := rfl
  rw [readValue, hskip]
  simp only [hskips]
  split
  · exact absurd rfl h
  · rfl

theorem readItems_last {item : Value} (h : readValue fuel cs = some (item, ']' :: rest)) :
    readItems (fuel + 1) cs = some ([item], rest) := by
  simp [h]

theorem readItems_comma {item : Value} (h : readValue fuel cs = some (item, ',' :: rest)) :
    readItems (fuel + 1) cs = (readItems fuel rest).map fun p => (item :: p.1, p.2) := by
  simp [h]

variable {key : List Char} {value : Value}

theorem readMembers_last (hkey : readKey cs = some (key, more))
    (h : readValue fuel more = some (value, '}' :: rest)) :
    readMembers (fuel + 1) cs = some ([(key, value)], rest) := by
  rw [readMembers, hkey, Option.bind_some]
  simp only [h]
  rfl

theorem readMembers_comma (hkey : readKey cs = some (key, more))
    (h : readValue fuel more = some (value, ',' :: rest)) :
    readMembers (fuel + 1) cs =
      (readMembers fuel rest).map fun p => ((key, value) :: p.1, p.2) := by
  rw [readMembers, hkey, Option.bind_some]
  simp only [h]
  rfl

theorem readKey_eq_some_iff : readKey cs = some (key, rest) ↔
    ∃ text more, skipSpaces cs = '"' :: text ∧ readString text = some (key, more) ∧
      skipSpaces more = ':' :: rest := by
  constructor
  · intro h
    unfold readKey at h
    split at h
    · rename_i text htext
      obtain ⟨⟨key', more⟩, hstring, h⟩ := Option.bind_eq_some_iff.mp h
      dsimp only at h
      split at h
      · rename_i rest' hcolon
        cases h
        exact ⟨text, more, htext, hstring, hcolon⟩
      · cases h
    · cases h
  · rintro ⟨text, more, htext, hstring, hcolon⟩
    rw [readKey]
    simp only [htext, hstring, Option.bind_some, hcolon]

end Parts

end Rload.JsonTexts
