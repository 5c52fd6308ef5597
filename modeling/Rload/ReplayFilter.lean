import Rload.GlobPatterns
import Rload.RequestEncoding
import Rload.RunErrors

/-!
# The filter of a replay

Before a replay its requests are filtered by their methods and by patterns for their URIs. The
patterns are matched by a loop that goes back to the last star when it gets stuck.
-/

namespace Rload
open GlobPatterns TextScanning

structure ReplayFilter where
  allowedMethods : List Method
  allowedUris : List (List Char)
  deriving DecidableEq, Repr

namespace ReplayFilter

def maxUriPatterns : ℕ := 32

def maxPatternBytes : ℕ := 256

/-- The code has these as messages of an `InvalidConfig`: "at most 32 allowed URI patterns may
be supplied", "invalid allowed URI pattern: {pattern:?}" and "replay whitelist excludes all
requests". -/
inductive Fault where
  | tooManyPatterns
  | invalidPattern (pattern : List Char)
  | excludesAll
  deriving DecidableEq, Repr

def starByte : UInt8 := 42

def isInvalidPattern (pattern : List Char) : Bool :=
  maxPatternBytes < (encodeUtf8 pattern).length || pattern.head? ≠ some '/' ||
    !(encodeUtf8 pattern).all (· < 128) ||
    (encodeUtf8 pattern).any fun byte => byte ≤ 32 || byte = 35

def validate (filter : ReplayFilter) : Except Fault Unit :=
  if maxUriPatterns < filter.allowedUris.length then .error .tooManyPatterns
  else match filter.allowedUris.find? isInvalidPattern with
    | some pattern => .error (.invalidPattern pattern)
    | none => .ok ()

/-- The variables of the loop. The last star is behind the pattern index, and the place at
which its retry began is not after the value index. -/
structure GlobState where
  patternIndex : ℕ := 0
  valueIndex : ℕ := 0
  star : Option ℕ := none
  retryValue : ℕ := 0
  star_lt : ∀ index ∈ star, index < patternIndex := by simp
  retry_le : retryValue ≤ valueIndex := by simp

namespace GlobState

/-- The byte of the pattern is that of the value. -/
def advance (s : GlobState) : GlobState where
  patternIndex := s.patternIndex + 1
  valueIndex := s.valueIndex + 1
  star := s.star
  retryValue := s.retryValue
  star_lt index h := Nat.lt_succ_of_lt (s.star_lt index h)
  retry_le := Nat.le_succ_of_le s.retry_le

/-- The pattern has a star. -/
def takeStar (s : GlobState) : GlobState where
  patternIndex := s.patternIndex + 1
  valueIndex := s.valueIndex
  star := some s.patternIndex
  retryValue := s.valueIndex
  star_lt index h := by
    cases h
    exact Nat.lt_succ_self _
  retry_le := le_rfl

/-- Back to the last star, which takes one byte more. -/
def retry (starIndex : ℕ) (s : GlobState) : GlobState where
  patternIndex := starIndex + 1
  valueIndex := s.retryValue + 1
  star := some starIndex
  retryValue := s.retryValue + 1
  star_lt index h := by
    cases h
    exact Nat.lt_succ_self _
  retry_le := le_rfl

/-- How much of the pattern is behind the last star. -/
def starred (s : GlobState) : ℕ := (s.star.map (· + 1)).getD 0

theorem starred_le (s : GlobState) : s.starred ≤ s.patternIndex := by
  rw [starred]
  cases h : s.star with
  | none => exact Nat.zero_le _
  | some index => exact s.star_lt index h

end GlobState

/-- The loop over the value. The result is the index in the pattern, or `none` where nothing
can be tried any more. -/
def globLoop (pattern value : List UInt8) (s : GlobState) : Option ℕ :=
  if hvalue : s.valueIndex < value.length then
    if pattern[s.patternIndex]? = some value[s.valueIndex] then globLoop pattern value s.advance
    else if hstar : pattern[s.patternIndex]? = some starByte then
      globLoop pattern value s.takeStar
    else match hs : s.star with
      | some starIndex => globLoop pattern value (s.retry starIndex)
      | none => none
  else some s.patternIndex
  termination_by (pattern.length - s.starred, value.length - s.retryValue,
    value.length - s.valueIndex)
  decreasing_by
    · have hlt : value.length - s.advance.valueIndex < value.length - s.valueIndex :=
        Nat.sub_lt_sub_left hvalue (Nat.lt_succ_self _)
      exact Prod.Lex.right _ (Prod.Lex.right _ hlt)
    · have hindex : s.patternIndex < pattern.length := (List.getElem?_eq_some_iff.mp hstar).1
      have hlt : pattern.length - s.takeStar.starred < pattern.length - s.starred := by
        have hle := s.starred_le
        have heq : s.takeStar.starred = s.patternIndex + 1 := rfl
        omega
      exact Prod.Lex.left _ _ hlt
    · have heq : (s.retry starIndex).starred = s.starred := by
        rw [GlobState.starred, GlobState.starred, hs]
        rfl
      have hlt : value.length - (s.retry starIndex).retryValue < value.length - s.retryValue :=
        Nat.sub_lt_sub_left (s.retry_le.trans_lt hvalue) (Nat.lt_succ_self _)
      rw [heq]
      exact Prod.Lex.right _ (Prod.Lex.left _ _ hlt)

def globMatches (pattern value : List UInt8) : Bool :=
  match globLoop pattern value {} with
  | some index => (pattern.drop index).dropWhile (· = starByte) = []
  | none => false

def admits (filter : ReplayFilter) (request : ReplayRequest) : Bool :=
  (filter.allowedMethods.isEmpty || filter.allowedMethods.contains request.method) &&
    (filter.allowedUris.isEmpty || filter.allowedUris.any fun pattern =>
      globMatches (encodeUtf8 pattern) (encodeUtf8 request.path))

/-- The requests that pass, and how many do not. -/
def apply (requests : List ReplayRequest) (filter : ReplayFilter) :
    Except Fault (List ReplayRequest × ℕ) :=
  match filter.validate with
  | .error fault => .error fault
  | .ok _ =>
    let passing := requests.filter filter.admits
    if passing = [] then .error .excludesAll
    else .ok (passing, requests.length - passing.length)

variable {pattern value : List UInt8} {s : GlobState}

theorem drop_eq_cons {α : Type} {as : List α} {i : ℕ} {a : α} (h : as[i]? = some a) :
    as.drop i = a :: as.drop (i + 1) := by
  obtain ⟨hi, rfl⟩ := List.getElem?_eq_some_iff.mp h
  exact List.drop_eq_getElem_cons hi

/-- What the loop has read since it went back to the last star is the same in the pattern and
in the value. -/
def GlobState.InStep (pattern value : List UInt8) (s : GlobState) : Prop :=
  ∀ index ∈ s.star, ∃ read, pattern.drop (index + 1) = read ++ pattern.drop s.patternIndex ∧
    value.drop s.retryValue = read ++ value.drop s.valueIndex

/-- There is a match that the loop can still find, from here or from a later retry. -/
def GlobState.Alive (pattern value : List UInt8) (s : GlobState) : Prop :=
  Spells starByte (pattern.drop s.patternIndex) (value.drop s.valueIndex) ∨
    ∃ index ∈ s.star, ∃ next, s.retryValue < next ∧
      Spells starByte (pattern.drop (index + 1)) (value.drop next)

namespace GlobState

theorem inStep_start : InStep pattern value {} := by
  intro index h
  cases h

theorem alive_start : Alive pattern value {} ↔ Spells starByte pattern value := by
  constructor
  · rintro (h | ⟨index, h, -⟩)
    · exact h
    · cases h
  · exact .inl

theorem InStep.advance (h : InStep pattern value s) {b : UInt8}
    (hpattern : pattern[s.patternIndex]? = some b) (hvalue : value[s.valueIndex]? = some b) :
    InStep pattern value s.advance := by
  intro index hindex
  obtain ⟨read, hread, hretry⟩ := h index hindex
  rw [drop_eq_cons hpattern] at hread
  rw [drop_eq_cons hvalue] at hretry
  refine ⟨read ++ [b], ?_, ?_⟩
  · rw [hread, List.append_assoc]
    rfl
  · rw [List.append_assoc]
    exact hretry

theorem alive_advance {b : UInt8} (hpattern : pattern[s.patternIndex]? = some b)
    (hvalue : value[s.valueIndex]? = some b) :
    Alive pattern value s.advance ↔ Alive pattern value s := by
  unfold Alive
  rw [drop_eq_cons hpattern, drop_eq_cons hvalue, spells_cons_self]
  rfl

theorem inStep_takeStar : InStep pattern value s.takeStar := by
  rintro index ⟨⟩
  exact ⟨[], rfl, rfl⟩

/-- A match from a later retry comes by the place in the pattern, no earlier in the value. -/
theorem InStep.later (h : InStep pattern value s) {index next : ℕ} (hindex : index ∈ s.star)
    (hlt : s.retryValue < next)
    (hrest : Spells starByte (pattern.drop (index + 1)) (value.drop next)) :
    ∃ place, s.valueIndex ≤ place ∧
      Spells starByte (pattern.drop s.patternIndex) (value.drop place) := by
  obtain ⟨read, hread, hretry⟩ := h index hindex
  have hnext : value.drop next = read.drop (next - s.retryValue) ++
      (value.drop s.valueIndex).drop (next - s.retryValue - read.length) := by
    rw [← List.drop_append, ← hretry, List.drop_drop, Nat.add_sub_of_le hlt.le]
  rw [hread, hnext] at hrest
  obtain ⟨count, hplace⟩ := hrest.past (List.drop_suffix _ read)
  rw [List.drop_drop, List.drop_drop] at hplace
  exact ⟨_, Nat.le_add_right _ _, hplace⟩

/-- The new star takes over from the one before. -/
theorem InStep.alive_takeStar (h : InStep pattern value s)
    (hstar : pattern[s.patternIndex]? = some starByte)
    (hvalue : value[s.valueIndex]? ≠ some starByte) :
    Alive pattern value s.takeStar ↔ Alive pattern value s := by
  have hpattern := drop_eq_cons hstar
  constructor
  · have hback : ∀ place, s.valueIndex ≤ place →
        Spells starByte (pattern.drop (s.patternIndex + 1)) (value.drop place) →
          Alive pattern value s := by
      intro place hle hrest
      have hhead : (value.drop s.valueIndex).head? ≠ some starByte := by
        rwa [List.head?_drop]
      refine .inl ?_
      rw [hpattern, spells_star hhead]
      refine ⟨place - s.valueIndex, ?_⟩
      rwa [List.drop_drop, Nat.add_sub_of_le hle]
    rintro (hrest | ⟨index, ⟨⟩, next, hlt, hrest⟩)
    · exact hback s.valueIndex le_rfl hrest
    · exact hback next hlt.le hrest
  · have hthrough : ∀ place, s.valueIndex ≤ place →
        Spells starByte (pattern.drop s.patternIndex) (value.drop place) →
          Alive pattern value s.takeStar := by
      intro place hle hrest
      rw [hpattern] at hrest
      have hnil : [] <:+ [starByte] := List.nil_suffix
      obtain ⟨count, hnext⟩ := hrest.past hnil
      rw [List.drop_drop] at hnext
      obtain heq | hlt := Nat.eq_or_lt_of_le (Nat.le_add_right_of_le (k := count) hle)
      · rw [← heq] at hnext
        exact .inl hnext
      · exact .inr ⟨s.patternIndex, rfl, _, hlt, hnext⟩
    rintro (hrest | ⟨index, hindex, next, hlt, hrest⟩)
    · exact hthrough s.valueIndex le_rfl hrest
    · obtain ⟨place, hle, hplace⟩ := h.later hindex hlt hrest
      exact hthrough place hle hplace

theorem inStep_retry {starIndex : ℕ} : InStep pattern value (s.retry starIndex) := by
  rintro index ⟨⟩
  exact ⟨[], rfl, rfl⟩

/-- Where neither the bytes nor the star fit, there is no match from here. -/
theorem not_spells_of_ne {b : UInt8} (hvalue : value[s.valueIndex]? = some b)
    (hbyte : pattern[s.patternIndex]? ≠ some b)
    (hstar : pattern[s.patternIndex]? ≠ some starByte) :
    ¬ Spells starByte (pattern.drop s.patternIndex) (value.drop s.valueIndex) := by
  rw [drop_eq_cons hvalue]
  cases hpattern : pattern[s.patternIndex]? with
  | none =>
    rw [List.drop_eq_nil_of_le (List.getElem?_eq_none_iff.mp hpattern)]
    exact not_spells_nil_cons
  | some a =>
    rw [drop_eq_cons hpattern]
    rw [hpattern] at hbyte hstar
    exact not_spells_cons (fun h => hbyte (congrArg some h)) fun h => hstar (congrArg some h)

theorem alive_retry {starIndex : ℕ} (hs : s.star = some starIndex)
    (hhere : ¬ Spells starByte (pattern.drop s.patternIndex) (value.drop s.valueIndex)) :
    Alive pattern value (s.retry starIndex) ↔ Alive pattern value s := by
  constructor
  · rintro (hrest | ⟨index, ⟨⟩, next, hlt, hrest⟩)
    · exact .inr ⟨starIndex, hs, s.retryValue + 1, Nat.lt_succ_self _, hrest⟩
    · exact .inr ⟨starIndex, hs, next, Nat.lt_of_succ_lt hlt, hrest⟩
  · rintro (hrest | ⟨index, hindex, next, hlt, hrest⟩)
    · exact absurd hrest hhere
    · cases hs.symm.trans hindex
      obtain rfl | hlt := Nat.eq_or_lt_of_le (Nat.succ_le_of_lt hlt)
      · exact .inl hrest
      · exact .inr ⟨starIndex, rfl, next, hlt, hrest⟩

/-- At the end of the value stars have to match what is left. -/
theorem InStep.alive_end (h : InStep pattern value s) (hvalue : value.length ≤ s.valueIndex) :
    Alive pattern value s ↔ ∀ b ∈ pattern.drop s.patternIndex, b = starByte := by
  rw [← spells_nil_iff]
  constructor
  · rintro (hrest | ⟨index, hindex, next, hlt, hrest⟩)
    · rwa [List.drop_eq_nil_of_le hvalue] at hrest
    · obtain ⟨place, hle, hplace⟩ := h.later hindex hlt hrest
      rwa [List.drop_eq_nil_of_le (hvalue.trans hle)] at hplace
  · intro hrest
    refine .inl ?_
    rwa [List.drop_eq_nil_of_le hvalue]

/-- The loop finds a match as long as there is one. -/
theorem InStep.globLoop (h : InStep pattern value s) :
    (∃ index, globLoop pattern value s = some index ∧ ∀ b ∈ pattern.drop index, b = starByte) ↔
      Alive pattern value s := by
  induction s using globLoop.induct pattern value with
  | case1 s hvalue hbyte ih =>
    have hat := List.getElem?_eq_getElem hvalue
    rw [ReplayFilter.globLoop, dif_pos hvalue, if_pos hbyte, ih (h.advance hbyte hat)]
    exact alive_advance hbyte hat
  | case2 s hvalue hbyte hstar ih =>
    rw [ReplayFilter.globLoop, dif_pos hvalue, if_neg hbyte, dif_pos hstar, ih inStep_takeStar]
    refine h.alive_takeStar hstar ?_
    rwa [← hstar, List.getElem?_eq_getElem hvalue, ne_comm]
  | case3 s hvalue hbyte hstar starIndex hs ih =>
    have hhere := not_spells_of_ne (List.getElem?_eq_getElem hvalue) hbyte hstar
    rw [ReplayFilter.globLoop, dif_pos hvalue, if_neg hbyte, dif_neg hstar]
    split
    case h_1 starIndex' hs' =>
      cases hs.symm.trans hs'
      rw [ih inStep_retry]
      exact alive_retry hs hhere
    case h_2 hs' => cases hs.symm.trans hs'
  | case4 s hvalue hbyte hstar hs =>
    have hhere := not_spells_of_ne (List.getElem?_eq_getElem hvalue) hbyte hstar
    rw [ReplayFilter.globLoop, dif_pos hvalue, if_neg hbyte, dif_neg hstar]
    split
    case h_1 starIndex' hs' => cases hs.symm.trans hs'
    case h_2 =>
      constructor
      · rintro ⟨index, ⟨⟩, -⟩
      · rintro (hrest | ⟨index, hindex, -⟩)
        · exact absurd hrest hhere
        · cases hs.symm.trans hindex
  | case5 s hvalue =>
    rw [ReplayFilter.globLoop, dif_neg hvalue, h.alive_end (Nat.le_of_not_lt hvalue)]
    simp

end GlobState

/-- The loop compares the bytes before it looks for stars, and so does its language. -/
theorem globMatches_iff_spells :
    globMatches pattern value = true ↔ Spells starByte pattern value := by
  rw [← GlobState.alive_start, ← GlobState.inStep_start.globLoop]
  unfold globMatches
  cases globLoop pattern value {} with
  | none => simp
  | some index => simp [List.dropWhile_eq_nil_iff]

theorem globMatches_sound (h : globMatches pattern value = true) :
    Generates starByte pattern value :=
  (globMatches_iff_spells.mp h).generates

/-- The matcher is right where the value, if it is a word of the pattern, can be read so that a
star of the pattern that meets a star of the value stands for that star alone. -/
theorem globMatches_exact (pattern value : List UInt8) :
    (globMatches pattern value = true ↔ Generates starByte pattern value) ↔
      (Generates starByte pattern value → Spells starByte pattern value) := by
  rw [globMatches_iff_spells]
  constructor
  · exact Iff.mpr
  · exact fun h => ⟨Spells.generates, h⟩

/-- The star of `/*` takes the star of `/*a` alone. -/
theorem starred_value_unmatched :
    Generates starByte [47, 42] [47, 42, 97] ∧ globMatches [47, 42] [47, 42, 97] = false := by
  constructor
  · exact .letter (by decide) (.star [42, 97] .nil)
  · simp [globMatches, globLoop, GlobState.advance, starByte]

/-- A value is matched rightly by every pattern exactly when no star is before its last byte. -/
theorem globMatches_of_value (value : List UInt8) :
    (∀ pattern, globMatches pattern value = true ↔ Generates starByte pattern value) ↔
      ∀ before after, value = before ++ starByte :: after → after = [] := by
  constructor
  · rintro h before after rfl
    have hstar : Generates starByte [starByte] (starByte :: after) := by
      simpa using Generates.star (starByte :: after) (.nil : Generates starByte [] [])
    have hgenerates := generates_append before hstar
    rw [← h, globMatches_iff_spells, spells_append, spells_cons_self] at hgenerates
    cases hgenerates
    rfl
  · intro hstars pattern
    exact (globMatches_exact pattern value).mpr fun h => h.spells hstars

/-- The filter is for the request: its method is among those that are allowed, and its path is
a word of one of the patterns. No methods or no patterns allow all. -/
structure Allows (filter : ReplayFilter) (request : ReplayRequest) : Prop where
  method : filter.allowedMethods = [] ∨ request.method ∈ filter.allowedMethods
  uri : filter.allowedUris = [] ∨ ∃ pattern ∈ filter.allowedUris,
    Generates starByte (encodeUtf8 pattern) (encodeUtf8 request.path)

theorem allows_of_admits {filter : ReplayFilter} {request : ReplayRequest}
    (h : filter.admits request = true) : filter.Allows request := by
  rw [admits, Bool.and_eq_true, Bool.or_eq_true, Bool.or_eq_true, List.isEmpty_iff,
    List.isEmpty_iff, List.contains_iff_mem, List.any_eq_true] at h
  obtain ⟨hmethod, huri⟩ := h
  refine ⟨hmethod, huri.imp_right ?_⟩
  rintro ⟨pattern, hmem, hmatches⟩
  exact ⟨pattern, hmem, globMatches_sound hmatches⟩

theorem apply_eq_ok {requests filtered : List ReplayRequest} {filter : ReplayFilter} {count : ℕ}
    (h : apply requests filter = .ok (filtered, count)) :
    filtered = requests.filter filter.admits ∧ count + filtered.length = requests.length := by
  unfold apply at h
  split at h
  · cases h
  · simp only at h
    split at h
    · cases h
    · cases h
      exact ⟨rfl, Nat.sub_add_cancel (List.length_filter_le ..)⟩

end ReplayFilter

end Rload
