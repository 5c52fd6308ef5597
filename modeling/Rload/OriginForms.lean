import Rload.RequestEncoding
import Rload.UriGrammar

/-!
# URIs in origin form

The scanner of `valid_origin_form` accepts the language of the grammar. It steps by one byte or
by the three of an escape, and so does a reading of the text from its front.
-/

namespace Rload
open Computability TextScanning UriGrammar

variable {bytes rest : List UInt8} {b first second : UInt8}

/-- The loop of `valid_origin_form` from an index on. Where an escape is cut off by the end, the
bytes after the percent sign are not looked at. -/
def scanUri (bytes : List UInt8) (index : ℕ) : Bool :=
  if hindex : index < bytes.length then
    if bytes[index] = 37 then
      if hescape : index + 2 < bytes.length then
        if isAsciiHexdigit bytes[index + 1] && isAsciiHexdigit bytes[index + 2] then
          scanUri bytes (index + 3)
        else false
      else false
    else if isUriByte bytes[index] then scanUri bytes (index + 1)
    else false
  else true
termination_by bytes.length - index

theorem validUriBytes_escape (bytes : List UInt8) (first second : UInt8) :
    validUriBytes (37 :: first :: second :: bytes) =
      (isAsciiHexdigit first && isAsciiHexdigit second && validUriBytes bytes) := by
  rw [validUriBytes]

theorem validUriBytes_byte (hb : b ≠ 37) (bytes : List UInt8) :
    validUriBytes (b :: bytes) = (isUriByte b && validUriBytes bytes) := by
  rw [validUriBytes]
  · rw [decide_eq_true hb, Bool.true_and]
  · intro first second rest hb'
    exact absurd hb' hb

/-- A percent sign with less than two bytes after it. -/
theorem validUriBytes_cut (h : bytes.length < 2) : validUriBytes (37 :: bytes) = false := by
  rw [validUriBytes]
  · rfl
  · rintro first second rest - rfl
    simp only [List.length_cons] at h
    omega

theorem drop_escape {index : ℕ} (hindex : index < bytes.length) (hpercent : bytes[index] = 37)
    (hescape : index + 2 < bytes.length) :
    bytes.drop index = 37 :: bytes[index + 1] :: bytes[index + 2] :: bytes.drop (index + 3) := by
  rw [List.drop_eq_getElem_cons hindex, hpercent, List.drop_eq_getElem_cons (by omega),
    List.drop_eq_getElem_cons (by omega)]

/-- The scanner at an index reads what is left from there. -/
theorem scanUri_eq (bytes : List UInt8) (index : ℕ) :
    scanUri bytes index = validUriBytes (bytes.drop index) := by
  fun_induction scanUri bytes index with
  | case1 index hindex hpercent hescape hdigits ih =>
    rw [drop_escape hindex hpercent hescape, validUriBytes_escape, hdigits, Bool.true_and, ih]
  | case2 index hindex hpercent hescape hdigits =>
    rw [Bool.not_eq_true] at hdigits
    rw [drop_escape hindex hpercent hescape, validUriBytes_escape, hdigits, Bool.false_and]
  | case3 index hindex hpercent hescape =>
    rw [List.drop_eq_getElem_cons hindex, hpercent, validUriBytes_cut]
    rw [List.length_drop]
    omega
  | case4 index hindex hbyte hplain ih =>
    rw [List.drop_eq_getElem_cons hindex, validUriBytes_byte hbyte, hplain, Bool.true_and, ih]
  | case5 index hindex hbyte hplain =>
    rw [Bool.not_eq_true] at hplain
    rw [List.drop_eq_getElem_cons hindex, validUriBytes_byte hbyte, hplain, Bool.false_and]
  | case6 index hindex =>
    rw [List.drop_of_length_le (Nat.le_of_not_lt hindex)]
    rfl

theorem isAsciiHexdigit_iff : isAsciiHexdigit b = true ↔ IsHexdig b := by
  simp [isAsciiHexdigit, isAsciiDigit, IsHexdig, IsDigit, octet, or_assoc]

theorem isUriByte_iff : isUriByte b = true ↔ IsPlain b := by
  have hmarks : b ∈ "-._~".toList.map octet ↔ b ∈ [45, 46, 95, 126] := Iff.rfl
  have hdelims : IsSubDelim b ↔ b ∈ [33, 36, 38, 39, 40, 41, 42, 43, 44, 59, 61] := Iff.rfl
  have hletters : isAsciiAlphanumeric b = true ↔ IsAlpha b ∨ IsDigit b := by
    simp [isAsciiAlphanumeric, isAsciiDigit, IsAlpha, IsDigit, octet, or_assoc, or_comm]
  rw [isUriByte, Bool.or_eq_true, decide_eq_true_eq, hletters, IsPlain, IsUnreserved, hmarks,
    hdelims]
  simp only [List.mem_cons, List.not_mem_nil, or_false]
  grind [octet]

theorem percent_not_plain : ¬ IsPlain 37 := by
  rw [← isUriByte_iff]
  decide

/-- The language of the pieces, read from the front. -/
theorem validUriBytes_iff : validUriBytes bytes = true ↔ bytes ∈ piece∗ := by
  constructor
  · intro h
    induction bytes using validUriBytes.induct with
    | case1 => exact Language.nil_mem_kstar _
    | case2 first second bytes ih =>
      rw [validUriBytes_escape, Bool.and_eq_true, Bool.and_eq_true, isAsciiHexdigit_iff,
        isAsciiHexdigit_iff] at h
      obtain ⟨⟨hfirst, hsecond⟩, hrest⟩ := h
      have hescape : [37, first, second] ∈ piece :=
        mem_piece.mpr (.inr ⟨first, second, rfl, hfirst, hsecond⟩)
      exact append_mem_kstar hescape (ih hrest)
    | case3 byte bytes hnot ih =>
      rw [validUriBytes, Bool.and_eq_true, Bool.and_eq_true, isUriByte_iff] at h
      · have hbyte : [byte] ∈ piece := mem_piece.mpr (.inl ⟨byte, rfl, h.1.2⟩)
        exact append_mem_kstar hbyte (ih h.2)
      · exact hnot
  · intro h
    obtain ⟨words, rfl, hwords⟩ := Language.mem_kstar.mp h
    clear h
    induction words with
    | nil => rfl
    | cons word words ih =>
      rw [List.forall_mem_cons] at hwords
      have hrest := ih hwords.2
      rw [List.flatten_cons]
      obtain ⟨b, rfl, hb⟩ | ⟨first, second, rfl, hfirst, hsecond⟩ := mem_piece.mp hwords.1
      · have hne : b ≠ 37 := by
          rintro rfl
          exact percent_not_plain hb
        rw [List.singleton_append, validUriBytes_byte hne, isUriByte_iff.mpr hb, hrest]
        rfl
      · have hescape := validUriBytes_escape words.flatten first second
        rw [isAsciiHexdigit_iff.mpr hfirst, isAsciiHexdigit_iff.mpr hsecond, hrest] at hescape
        exact hescape

/-- The first byte, the absence of a fragment and the scanner, as the code has them. -/
theorem validOriginForm_scan (uri : List Char) :
    validOriginForm uri = ((encodeUtf8 uri).head? = some 47 && !uri.contains '#' &&
      scanUri (encodeUtf8 uri) 0) := by
  rw [scanUri_eq, List.drop_zero]
  rfl

theorem uriByte_of_valid {bytes : List UInt8} (h : validUriBytes bytes = true) :
    ∀ b ∈ bytes, b = 37 ∨ isUriByte b = true ∨ isAsciiHexdigit b = true := by
  induction bytes using validUriBytes.induct with
  | case1 => exact fun b hb => absurd hb List.not_mem_nil
  | case2 first second bytes ih =>
    rw [validUriBytes, Bool.and_eq_true, Bool.and_eq_true] at h
    rw [List.forall_mem_cons, List.forall_mem_cons, List.forall_mem_cons]
    exact ⟨Or.inl rfl, Or.inr (Or.inr h.1.1), Or.inr (Or.inr h.1.2), ih h.2⟩
  | case3 byte bytes hnot ih =>
    rw [validUriBytes, Bool.and_eq_true, Bool.and_eq_true] at h
    · rw [List.forall_mem_cons]
      exact ⟨Or.inr (Or.inl h.1.2), ih h.2⟩
    · exact hnot

theorem visible_of_alphanumeric (h : isAsciiAlphanumeric b = true) :
    32 < b ∧ b < 127 ∧ b ≠ 35 := by
  grind [isAsciiAlphanumeric, isAsciiDigit]

theorem alphanumeric_of_hexdigit (h : isAsciiHexdigit b = true) : isAsciiAlphanumeric b = true := by
  grind [isAsciiHexdigit, isAsciiAlphanumeric]

/-- No byte is a space, a control byte, a hash or a part of a longer character. -/
theorem visible_of_valid (h : validUriBytes bytes = true) (hb : b ∈ bytes) :
    32 < b ∧ b < 127 ∧ b ≠ 35 := by
  obtain rfl | hplain | hdigit := uriByte_of_valid h b hb
  · decide
  · rw [isUriByte, Bool.or_eq_true, decide_eq_true_eq] at hplain
    cases hplain with
    | inl halphanumeric => exact visible_of_alphanumeric halphanumeric
    | inr hmark =>
      have hvisible : List.all [47, 63, 45, 46, 95, 126, 33, 36, 38, 39, 40, 41, 42, 43, 44, 59,
          61, 58, 64] (fun b : UInt8 => 32 < b ∧ b < 127 ∧ b ≠ 35) = true := by decide
      exact of_decide_eq_true (List.all_eq_true.mp hvisible b hmark)
  · exact visible_of_alphanumeric (alphanumeric_of_hexdigit hdigit)

/-- Both digits follow each percent sign. -/
theorem escape_of_valid {before : List UInt8} (h : validUriBytes bytes = true)
    (hbytes : bytes = before ++ 37 :: rest) :
    ∃ first second after, rest = first :: second :: after ∧ IsHexdig first ∧ IsHexdig second := by
  have hdigit : ¬ isAsciiHexdigit 37 = true := by decide
  induction bytes using validUriBytes.induct generalizing before with
  | case1 => exact absurd hbytes.symm (by simp)
  | case2 first second bytes ih =>
    rw [validUriBytes_escape, Bool.and_eq_true, Bool.and_eq_true] at h
    match before with
    | [] =>
      cases hbytes
      exact ⟨first, second, bytes, rfl, isAsciiHexdigit_iff.mp h.1.1, isAsciiHexdigit_iff.mp h.1.2⟩
    | [_] =>
      cases hbytes
      exact absurd h.1.1 hdigit
    | [_, _] =>
      cases hbytes
      exact absurd h.1.2 hdigit
    | _ :: _ :: _ :: before =>
      cases hbytes
      exact ih h.2 rfl
  | case3 byte bytes hnot ih =>
    rw [validUriBytes, Bool.and_eq_true, Bool.and_eq_true, decide_eq_true_eq] at h
    · cases before with
      | nil =>
        cases hbytes
        exact absurd rfl h.1.1
      | cons b before =>
        cases hbytes
        exact ih h.2 rfl
    · exact hnot

theorem not_mem_of_valid {uri : List Char} (h : validUriBytes (encodeUtf8 uri) = true) :
    '#' ∉ uri := by
  intro hmem
  have hbyte : 35 ∈ encodeUtf8 uri := List.mem_flatMap.mpr ⟨'#', hmem, by decide⟩
  exact (visible_of_valid h hbyte).2.2 rfl

theorem validOriginForm_iff (uri : List Char) :
    validOriginForm uri = true ↔ encodeUtf8 uri ∈ originForm := by
  rw [validOriginForm, Bool.and_eq_true, Bool.and_eq_true, decide_eq_true_eq, mem_originForm]
  constructor
  · rintro ⟨⟨hslash, -⟩, hvalid⟩
    obtain ⟨rest, hbytes⟩ := List.head?_eq_some_iff.mp hslash
    rw [hbytes, validUriBytes_byte (by decide), Bool.and_eq_true, validUriBytes_iff] at hvalid
    exact ⟨rest, hvalid.2, hbytes⟩
  · rintro ⟨rest, hrest, hbytes⟩
    have hvalid : validUriBytes (encodeUtf8 uri) = true := by
      rw [hbytes, validUriBytes_byte (by decide), validUriBytes_iff.mpr hrest]
      rfl
    refine ⟨⟨?_, ?_⟩, hvalid⟩
    · rw [hbytes]
      rfl
    · simpa using not_mem_of_valid hvalid

/-- What `valid_origin_form` accepts is the language of the grammar, and it is what the scanner
of the code accepts. -/
theorem validOriginForm_exact (uri : List Char) :
    (validOriginForm uri = true ↔ encodeUtf8 uri ∈ originForm) ∧
      validOriginForm uri = ((encodeUtf8 uri).head? = some 47 && !uri.contains '#' &&
        scanUri (encodeUtf8 uri) 0) ∧
      (validOriginForm uri = true →
        (∀ b ∈ encodeUtf8 uri, octet ' ' < b ∧ b < 127 ∧ b ≠ octet '#') ∧
          ∀ before rest, encodeUtf8 uri = before ++ octet '%' :: rest →
            ∃ first second after, rest = first :: second :: after ∧
              IsHexdig first ∧ IsHexdig second) := by
  refine ⟨validOriginForm_iff uri, validOriginForm_scan uri, fun h => ?_⟩
  rw [validOriginForm, Bool.and_eq_true] at h
  exact ⟨fun b hb => visible_of_valid h.2 hb, fun before rest => escape_of_valid h.2⟩

end Rload
