import Rload.JsonTexts
import Rload.Report

/-!
# The data of a report

The backslashes that keep end tags out of the data stand in strings, before characters that mean
the same with and without them. Wherever the text is read, the same is read from the data.
-/

namespace Rload.Report
open JsonDocuments JsonTexts

theorem escapeEndTags_cons {c : Char} (hc : c ≠ '<') (text : List Char) :
    escapeEndTags (c :: text) = c :: escapeEndTags text := by
  cases text with
  | nil => rfl
  | cons d text => rw [escapeEndTags, if_neg fun h => hc h.1]

theorem escapeEndTags_clear {a : List Char} (h : '<' ∉ a) (b : List Char) :
    escapeEndTags (a ++ b) = a ++ escapeEndTags b := by
  induction a with
  | nil => rfl
  | cons c a ih =>
    obtain ⟨hc, ha⟩ : '<' ≠ c ∧ '<' ∉ a := by simpa using h
    rw [List.cons_append, escapeEndTags_cons hc.symm, ih ha, List.cons_append]

/-- A backslash behind the character makes no difference. -/
theorem readString_lessThan (text : List Char) : readString (escapeEndTags ('<' :: text)) =
    prepend '<' (readString (escapeEndTags text)) := by
  have hplain : ∀ rest, readString ('<' :: rest) = prepend '<' (readString rest) :=
    readString_plain (by decide) (by decide) (by decide)
  cases text with
  | nil => exact hplain []
  | cons d text =>
    by_cases hd : d = '/'
    · subst hd
      have hslash : readString ('\\' :: '/' :: escapeEndTags text) =
          readString ('/' :: escapeEndTags text) := by
        rw [readString_escape rfl, readString_plain (by decide) (by decide) (by decide)]
      rw [escapeEndTags, if_pos ⟨rfl, rfl⟩, escapeEndTags_cons (by decide)]
      exact (hplain _).trans (congrArg (prepend '<') hslash)
    · rw [escapeEndTags, if_neg fun h => hd h.2]
      exact hplain _

theorem lessThan_not_mem_codeUnit {digits : List Char} {unit : ℕ}
    (h : codeUnit digits = some unit) : '<' ∉ digits := by
  intro hmem
  unfold codeUnit TextScanning.numeral at h
  split at h
  · cases h
  · obtain ⟨values, hvalues, -⟩ := Option.map_eq_some_iff.mp h
    rw [mapM_eq_ite] at hvalues
    split at hvalues
    · rename_i hall
      exact absurd (hall '<' hmem) (by decide)
    · cases hvalues

/-- Four digits behind the mark of a code unit. -/
theorem escapeEndTags_unit {a b c d : Char} {unit : ℕ} (h : codeUnit [a, b, c, d] = some unit)
    (rest : List Char) : escapeEndTags ('\\' :: 'u' :: a :: b :: c :: d :: rest) =
      '\\' :: 'u' :: a :: b :: c :: d :: escapeEndTags rest := by
  have hclear : '<' ∉ ['\\', 'u', a, b, c, d] := by
    have hdigits := lessThan_not_mem_codeUnit h
    simpa using hdigits
  exact escapeEndTags_clear hclear rest

theorem unescape_ne {c d : Char} (h : unescape c = some d) : c ≠ '<' := by
  rintro rfl
  cases h

/-- A string is read from the data with its escapes. -/
theorem readString_escapeEndTags {cs text rest : List Char}
    (h : readString cs = some (text, rest)) :
    readString (escapeEndTags cs) = some (text, escapeEndTags rest) := by
  fun_induction readString cs generalizing text rest with
  | case1 => cases h
  | case2 rest' =>
    cases h
    rw [escapeEndTags_cons (by decide)]
    rfl
  | case3 a b c d cs ih₂ ih₁ =>
    have hread : readString ('\\' :: 'u' :: a :: b :: c :: d :: cs) = some (text, rest) := by
      rw [readString]
      exact h
    obtain ⟨unit, hunit, hcases⟩ := readString_unit_cases hread
    rw [escapeEndTags_unit hunit]
    obtain ⟨hhigh, hlow, h⟩ | ⟨a', b', c', d', low, more, hhigh, rfl, hlow, hsurrogate, h⟩ := hcases
    · obtain ⟨tail, htail, rfl⟩ := prepend_eq_some h
      rw [readString_unit hunit hhigh hlow, ih₁ htail]
      rfl
    · obtain ⟨tail, htail, rfl⟩ := prepend_eq_some h
      rw [escapeEndTags_unit hlow, readString_pair hunit hhigh hlow hsurrogate, ih₂ htail]
      rfl
  | case4 c cs hnot ih =>
    obtain ⟨e, hescape, h⟩ := Option.bind_eq_some_iff.mp h
    obtain ⟨tail, htail, rfl⟩ := prepend_eq_some h
    rw [escapeEndTags_cons (by decide), escapeEndTags_cons (unescape_ne hescape),
      readString_escape hescape, ih htail]
    rfl
  | case5 => cases h
  | case6 c cs hquote hunit hescape hplain ih =>
    obtain ⟨tail, htail, rfl⟩ := prepend_eq_some h
    obtain ⟨hcontrol, hbackslash⟩ := not_or.mp hplain
    by_cases hc : c = '<'
    · subst hc
      rw [readString_lessThan, ih htail]
      rfl
    · rw [escapeEndTags_cons hc, readString_plain hquote hbackslash (not_lt.mp hcontrol), ih htail]
      rfl

section Scans

variable {p : Char → Bool} {name : List Char}

theorem exists_escapeEndTags_cons (c : Char) (cs : List Char) :
    ∃ rest, escapeEndTags (c :: cs) = c :: rest := by
  have hhead := head?_escapeEndTags (c :: cs)
  rw [List.head?_cons] at hhead
  exact ⟨_, List.eq_cons_of_mem_head? hhead⟩

/-- A scan that does not pass `<` ends in the same place. -/
theorem takeWhile_escapeEndTags (hp : p '<' = false) (cs : List Char) :
    (escapeEndTags cs).takeWhile p = cs.takeWhile p := by
  induction cs with
  | nil => rfl
  | cons c cs ih =>
    cases hc : p c with
    | true =>
      have hne : c ≠ '<' := by
        rintro rfl
        rw [hp] at hc
        cases hc
      rw [escapeEndTags_cons hne, List.takeWhile_cons_of_pos hc, List.takeWhile_cons_of_pos hc, ih]
    | false =>
      obtain ⟨rest, hrest⟩ := exists_escapeEndTags_cons c cs
      rw [hrest, List.takeWhile_cons_of_neg (by simp [hc]),
        List.takeWhile_cons_of_neg (by simp [hc])]

theorem dropWhile_escapeEndTags (hp : p '<' = false) (cs : List Char) :
    (escapeEndTags cs).dropWhile p = escapeEndTags (cs.dropWhile p) := by
  induction cs with
  | nil => rfl
  | cons c cs ih =>
    cases hc : p c with
    | true =>
      have hne : c ≠ '<' := by
        rintro rfl
        rw [hp] at hc
        cases hc
      rw [escapeEndTags_cons hne, List.dropWhile_cons_of_pos hc, List.dropWhile_cons_of_pos hc, ih]
    | false =>
      obtain ⟨rest, hrest⟩ := exists_escapeEndTags_cons c cs
      rw [List.dropWhile_cons_of_neg (by simp [hc] : ¬ p c = true), hrest,
        List.dropWhile_cons_of_neg (by simp [hc])]

theorem skipSpaces_escapeEndTags (cs : List Char) :
    skipSpaces (escapeEndTags cs) = escapeEndTags (skipSpaces cs) :=
  dropWhile_escapeEndTags rfl cs

theorem isPrefixOf_escapeEndTags (hname : '<' ∉ name) (cs : List Char) :
    name.isPrefixOf (escapeEndTags cs) = name.isPrefixOf cs := by
  induction name generalizing cs with
  | nil => simp
  | cons n name ih =>
    obtain ⟨hn, hname⟩ : '<' ≠ n ∧ '<' ∉ name := by simpa using hname
    cases cs with
    | nil => rfl
    | cons c cs =>
      by_cases hc : c = '<'
      · subst hc
        obtain ⟨rest, hrest⟩ := exists_escapeEndTags_cons '<' cs
        rw [hrest, List.isPrefixOf_cons_cons, List.isPrefixOf_cons_cons, beq_false_of_ne hn.symm]
        rfl
      · rw [escapeEndTags_cons hc, List.isPrefixOf_cons_cons, List.isPrefixOf_cons_cons, ih hname]

theorem drop_escapeEndTags {cs : List Char} (hname : '<' ∉ name)
    (h : name.isPrefixOf cs = true) :
    (escapeEndTags cs).drop name.length = escapeEndTags (cs.drop name.length) := by
  obtain ⟨rest, rfl⟩ := List.isPrefixOf_iff_prefix.mp h
  rw [escapeEndTags_clear hname, List.drop_left, List.drop_left]

end Scans

theorem readScalar_escapeEndTags (cs : List Char) : readScalar (escapeEndTags cs) =
    (readScalar cs).map fun p => (p.1, escapeEndTags p.2) := by
  have hnull := @isPrefixOf_escapeEndTags ['n', 'u', 'l', 'l'] (by decide) cs
  have htrue := @isPrefixOf_escapeEndTags ['t', 'r', 'u', 'e'] (by decide) cs
  have hfalse := @isPrefixOf_escapeEndTags ['f', 'a', 'l', 's', 'e'] (by decide) cs
  have hlessThan : isNumberChar '<' = false := by decide
  rw [readScalar, readScalar, hnull, htrue, hfalse, takeWhile_escapeEndTags hlessThan,
    dropWhile_escapeEndTags hlessThan]
  split
  · rename_i h
    exact congrArg (fun rest => some (Value.null, rest)) (drop_escapeEndTags (by decide) h)
  · split
    · rename_i h
      exact congrArg (fun rest => some (Value.bool true, rest)) (drop_escapeEndTags (by decide) h)
    · split
      · rename_i h
        exact congrArg (fun rest => some (Value.bool false, rest))
          (drop_escapeEndTags (by decide) h)
      · split
        · rfl
        · rfl

theorem readKey_escapeEndTags {cs key rest : List Char} (h : readKey cs = some (key, rest)) :
    readKey (escapeEndTags cs) = some (key, escapeEndTags rest) := by
  obtain ⟨text, more, htext, hstring, hcolon⟩ := readKey_eq_some_iff.mp h
  refine readKey_eq_some_iff.mpr ⟨_, _, ?_, readString_escapeEndTags hstring, ?_⟩
  · rw [skipSpaces_escapeEndTags, htext, escapeEndTags_cons (by decide)]
  · rw [skipSpaces_escapeEndTags, hcolon, escapeEndTags_cons (by decide)]

/-- What is read with the fuel is read from the data with as much or more. -/
structure ReadsData (fuel : ℕ) : Prop where
  value : ∀ {fuel' cs v rest}, fuel ≤ fuel' → readValue fuel cs = some (v, rest) →
    readValue fuel' (escapeEndTags cs) = some (v, escapeEndTags rest)
  items : ∀ {fuel' cs items rest}, fuel ≤ fuel' → readItems fuel cs = some (items, rest) →
    readItems fuel' (escapeEndTags cs) = some (items, escapeEndTags rest)
  members : ∀ {fuel' cs members rest}, fuel ≤ fuel' → readMembers fuel cs = some (members, rest) →
    readMembers fuel' (escapeEndTags cs) = some (members, escapeEndTags rest)

section Steps

variable {fuel fuel' : ℕ} {cs rest : List Char} (h : ReadsData fuel) (hle : fuel ≤ fuel')
include h hle

theorem readItems_escapeEndTags {items : List Value}
    (hread : readItems (fuel + 1) cs = some (items, rest)) :
    readItems (fuel' + 1) (escapeEndTags cs) = some (items, escapeEndTags rest) := by
  rw [readItems] at hread
  obtain ⟨⟨item, more⟩, hitem, hread⟩ := Option.bind_eq_some_iff.mp hread
  have hitem' := h.value hle hitem
  dsimp only at hread
  split at hread
  · rename_i more
    obtain ⟨⟨items, rest⟩, hitems, heq⟩ := Option.map_eq_some_iff.mp hread
    cases heq
    rw [escapeEndTags_cons (by decide)] at hitem'
    rw [readItems_comma hitem', h.items hle hitems]
    rfl
  · cases hread
    rw [escapeEndTags_cons (by decide)] at hitem'
    exact readItems_last hitem'
  · cases hread

theorem readMembers_escapeEndTags {members : List (List Char × Value)}
    (hread : readMembers (fuel + 1) cs = some (members, rest)) :
    readMembers (fuel' + 1) (escapeEndTags cs) = some (members, escapeEndTags rest) := by
  rw [readMembers] at hread
  obtain ⟨⟨key, more⟩, hkey, hread⟩ := Option.bind_eq_some_iff.mp hread
  obtain ⟨⟨value, more⟩, hvalue, hread⟩ := Option.bind_eq_some_iff.mp hread
  have hkey' := readKey_escapeEndTags hkey
  have hvalue' := h.value hle hvalue
  dsimp only at hread
  split at hread
  · rename_i more
    obtain ⟨⟨members, rest⟩, hmembers, heq⟩ := Option.map_eq_some_iff.mp hread
    cases heq
    rw [escapeEndTags_cons (by decide)] at hvalue'
    rw [readMembers_comma hkey' hvalue', h.members hle hmembers]
    rfl
  · cases hread
    rw [escapeEndTags_cons (by decide)] at hvalue'
    exact readMembers_last hkey' hvalue'
  · cases hread

theorem readArray_escapeEndTags {v : Value}
    (hread : readValue (fuel + 1) ('[' :: cs) = some (v, rest)) :
    readValue (fuel' + 1) ('[' :: escapeEndTags cs) = some (v, escapeEndTags rest) := by
  by_cases hempty : (skipSpaces cs).head? = some ']'
  · have hmore := List.eq_cons_of_mem_head? hempty
    have hmore' : skipSpaces (escapeEndTags cs) = ']' :: escapeEndTags (skipSpaces cs).tail := by
      rw [skipSpaces_escapeEndTags, ← escapeEndTags_cons (by decide), ← hmore]
    rw [readValue_emptyArray hmore] at hread
    cases hread
    rw [readValue_emptyArray hmore', skipSpaces_escapeEndTags]
  · rw [readValue_array rfl hempty] at hread
    obtain ⟨⟨items, more⟩, hitems, heq⟩ := Option.map_eq_some_iff.mp hread
    cases heq
    rw [← head?_escapeEndTags] at hempty
    rw [readValue_array (skipSpaces_escapeEndTags cs) hempty, h.items hle hitems, Option.map_some,
      skipSpaces_escapeEndTags]

theorem readObject_escapeEndTags {v : Value}
    (hread : readValue (fuel + 1) ('{' :: cs) = some (v, rest)) :
    readValue (fuel' + 1) ('{' :: escapeEndTags cs) = some (v, escapeEndTags rest) := by
  by_cases hempty : (skipSpaces cs).head? = some '}'
  · have hmore := List.eq_cons_of_mem_head? hempty
    have hmore' : skipSpaces (escapeEndTags cs) = '}' :: escapeEndTags (skipSpaces cs).tail := by
      rw [skipSpaces_escapeEndTags, ← escapeEndTags_cons (by decide), ← hmore]
    rw [readValue_emptyObject hmore] at hread
    cases hread
    rw [readValue_emptyObject hmore', skipSpaces_escapeEndTags]
  · rw [readValue_object rfl hempty] at hread
    obtain ⟨⟨members, more⟩, hmembers, heq⟩ := Option.map_eq_some_iff.mp hread
    cases heq
    rw [← head?_escapeEndTags] at hempty
    rw [readValue_object (skipSpaces_escapeEndTags cs) hempty, h.members hle hmembers,
      Option.map_some, skipSpaces_escapeEndTags]

theorem readValue_escapeEndTags {v : Value} (hread : readValue (fuel + 1) cs = some (v, rest)) :
    readValue (fuel' + 1) (escapeEndTags cs) = some (v, escapeEndTags rest) := by
  rw [← readValue_skipSpaces] at hread ⊢
  rw [skipSpaces_escapeEndTags]
  cases hcs : skipSpaces cs with
  | nil =>
    rw [hcs] at hread
    cases hread
  | cons c cs =>
    have hspace := isSpace_of_skipSpaces hcs
    rw [hcs] at hread
    by_cases hquote : c = '"'
    · subst hquote
      rw [readValue_string] at hread
      obtain ⟨⟨text, more⟩, hstring, heq⟩ := Option.map_eq_some_iff.mp hread
      cases heq
      rw [escapeEndTags_cons (by decide), readValue_string, readString_escapeEndTags hstring,
        Option.map_some, skipSpaces_escapeEndTags]
    by_cases hbracket : c = '['
    · subst hbracket
      rw [escapeEndTags_cons (by decide)]
      exact readArray_escapeEndTags h hle hread
    by_cases hbrace : c = '{'
    · subst hbrace
      rw [escapeEndTags_cons (by decide)]
      exact readObject_escapeEndTags h hle hread
    rw [readValue_scalar hspace hquote hbracket hbrace] at hread
    obtain ⟨⟨scalar, more⟩, hscalar, heq⟩ := Option.map_eq_some_iff.mp hread
    cases heq
    have hscalar' := readScalar_escapeEndTags (c :: cs)
    obtain ⟨cs', hcs'⟩ := exists_escapeEndTags_cons c cs
    rw [hscalar, hcs'] at hscalar'
    rw [hcs', readValue_scalar hspace hquote hbracket hbrace, hscalar', Option.map_some,
      Option.map_some, skipSpaces_escapeEndTags]

end Steps

/-- More fuel takes care of the characters that the data has in addition. -/
theorem readsData (fuel : ℕ) : ReadsData fuel := by
  induction fuel with
  | zero =>
    constructor
    · intro fuel' cs v rest hle hread
      rw [readValue] at hread
      cases hread
    · intro fuel' cs items rest hle hread
      rw [readItems] at hread
      cases hread
    · intro fuel' cs members rest hle hread
      rw [readMembers] at hread
      cases hread
  | succ fuel ih =>
    constructor
    · intro fuel' cs v rest hle hread
      obtain ⟨fuel', rfl⟩ := Nat.exists_eq_add_of_lt hle
      exact readValue_escapeEndTags ih (Nat.le_add_right _ _) hread
    · intro fuel' cs items rest hle hread
      obtain ⟨fuel', rfl⟩ := Nat.exists_eq_add_of_lt hle
      exact readItems_escapeEndTags ih (Nat.le_add_right _ _) hread
    · intro fuel' cs members rest hle hread
      obtain ⟨fuel', rfl⟩ := Nat.exists_eq_add_of_lt hle
      exact readMembers_escapeEndTags ih (Nat.le_add_right _ _) hread

theorem length_le_escapeEndTags (text : List Char) :
    text.length ≤ (escapeEndTags text).length := by
  fun_induction escapeEndTags text with
  | case1 => exact le_rfl
  | case2 c => exact le_rfl
  | case3 c d cs h ih =>
    simp only [List.length_cons]
    omega
  | case4 c d cs h ih =>
    simp only [List.length_cons] at ih ⊢
    omega

/-- The data in the page has no end tag, and what is read from it is the result. -/
theorem data_read_back (serialize : Value → Except String (List Char)) {result : Value}
    {text : List Char} (hserialize : serialize result = .ok text)
    (h : readText text = some result) :
    render serialize result = .ok (documentHead ++ scriptTag ++ dataStart ++ escapeEndTags text ++
        (';' :: scriptRest ++ closingTag ++ documentEnd)) ∧
      ¬ ['<', '/'] <:+: escapeEndTags text ∧
      readText (escapeEndTags text) = some result := by
  refine ⟨?_, not_infix_escapeEndTags _, ?_⟩
  · rw [render_eq hserialize]
    simp [page, scriptText]
  · have hlength := length_le_escapeEndTags text
    exact readText_eq_some_iff.mpr
      ((readsData _).value (by omega) (readText_eq_some_iff.mp h))

/-- A string with a quote and a backslash before its end tags. -/
def quotedEndTags : Value := .array [.string "\"</b>\\</".toList, .number ['1']]

def quotedText : List Char := "[\"\\\"</b>\\\\</\",1]".toList

theorem readText_quotedText : readText quotedText = some quotedEndTags := by
  have hstring : readString (quotedText.drop 2) =
      some ("\"</b>\\</".toList, [',', '1', ']']) := by
    decide +kernel
  have hfirst : readValue 15 ('"' :: quotedText.drop 2) =
      some (.string "\"</b>\\</".toList, [',', '1', ']']) := by
    rw [readValue_string, hstring]
    rfl
  have hitems : readItems 16 ('"' :: quotedText.drop 2) =
      some ([.string "\"</b>\\</".toList, .number ['1']], []) := by
    rw [readItems_comma hfirst]
    rfl
  have hskip : skipSpaces ('"' :: quotedText.drop 2) = '"' :: quotedText.drop 2 := rfl
  have htext : quotedText = '[' :: '"' :: quotedText.drop 2 := by decide +kernel
  have hlength : quotedText.length = 16 := by decide +kernel
  rw [readText_eq_some_iff, hlength, htext, readValue_array hskip (by decide), hitems]
  rfl

theorem data_read_back_endTags : ¬ ['<', '/'] <:+: escapeEndTags quotedText ∧
    readText (escapeEndTags quotedText) = some quotedEndTags :=
  (data_read_back (fun _ => .ok quotedText) rfl readText_quotedText).2

end Rload.Report
