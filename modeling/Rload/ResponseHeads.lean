import Rload.WellFormedResponses

/-!
# The head of a well-formed response is parsed

The blank line is found where the head ends, and the parsed head has the status of the
status line and the framing of the body. Header lines that announce no framing make no
difference, wherever they stand.
-/

namespace Rload.ResponseFraming
open TextScanning WellFormedResponses

theorem blank_isWhitespace {cs : List Char} (h : IsBlank cs) : ∀ c ∈ cs, isWhitespace c := by
  intro c hc
  rcases h c hc with rfl | rfl <;> decide

theorem not_mem_of_eqIgnoreAsciiCase {a b : List Char} (h : eqIgnoreAsciiCase a b) {c : Char}
    (hlower : c.toLower = c) (hc : c ∉ b.map Char.toLower) : c ∉ a := by
  intro hmem
  have heq : a.map Char.toLower = b.map Char.toLower := by simpa [eqIgnoreAsciiCase] using h
  exact hc (heq ▸ hlower ▸ List.mem_map_of_mem hmem)

theorem digit_not_whitespace {radix : ℕ} {c : Char} {d : ℕ}
    (h : digitValue radix c = some d) : ¬ isWhitespace c := by
  simp only [digitValue, isWhitespace] at h ⊢
  split_ifs at h <;> simp_all <;> omega

theorem encodeUtf8_intercalate (ls : List (List Char)) :
    encodeUtf8 (['\r', '\n'].intercalate ls) = crlf.intercalate (ls.map encodeUtf8) := by
  induction ls with
  | nil => rfl
  | cons l ls ih =>
    cases ls with
    | nil => simp
    | cons l' ls =>
      simp only [List.intercalate_cons_cons, List.map_cons, encodeUtf8_append] at ih ⊢
      rw [ih]
      rfl

theorem splitCrlf_intercalate {ls : List (List Char)} (hne : ls ≠ [])
    (h : ∀ l ∈ ls, '\r' ∉ l) : splitCrlf (['\r', '\n'].intercalate ls) = ls := by
  induction ls with
  | nil => exact absurd rfl hne
  | cons l ls ih =>
    cases ls with
    | nil => simpa using splitCrlf_line (h l (by simp))
    | cons l' ls =>
      have ih := ih (by simp) fun x hx => h x (List.mem_cons_of_mem _ hx)
      rw [List.intercalate_cons_cons, List.append_assoc, List.cons_append, List.cons_append,
        List.nil_append, splitCrlf_append (h l (by simp)), ih]

/-- The first blank line after non-empty lines is the one that ends them. -/
theorem firstOccurrence_blankLine {ls : List (List UInt8)} (hne : ls ≠ [])
    (hnil : ∀ l ∈ ls, l ≠ []) (hcr : ∀ l ∈ ls, 13 ∉ l) (rest : List UInt8) :
    firstOccurrence blankLine (crlf.intercalate ls ++ blankLine ++ rest) =
      some (crlf.intercalate ls).length := by
  induction ls with
  | nil => exact absurd rfl hne
  | cons l ls ih =>
    have hl := hcr l (by simp)
    cases ls with
    | nil =>
      rw [List.intercalate_singleton, List.append_assoc, blankLine,
        firstOccurrence_append_of_not_mem hl, firstOccurrence_zero (by simp) (by simp)]
      simp
    | cons l' ls =>
      have ih := ih (by simp) (fun x hx => hnil x (List.mem_cons_of_mem _ hx))
        fun x hx => hcr x (List.mem_cons_of_mem _ hx)
      obtain ⟨c, t, hc⟩ := List.exists_cons_of_ne_nil (hnil l' (by simp))
      have hc13 : c ≠ 13 := by
        have h13 := hcr l' (by simp)
        rw [hc] at h13
        exact fun h => h13 (h ▸ List.mem_cons_self)
      obtain ⟨t', ht'⟩ : ∃ t', crlf.intercalate (l' :: ls) ++ blankLine ++ rest = c :: t' := by
        cases ls <;> simp [hc]
      have hskip : firstOccurrence blankLine (13 :: 10 :: c :: t') =
          (firstOccurrence blankLine (c :: t')).map (· + 2) := by
        rw [firstOccurrence_cons, firstOccurrence_cons, Option.map_map]
        · rfl
        · simp [blankLine]
        · simp [blankLine, List.cons_prefix_cons, hc13.symm]
      rw [List.intercalate_cons_cons, List.append_assoc, List.append_assoc, List.append_assoc,
        ← List.append_assoc (crlf.intercalate (l' :: ls)), ht', blankLine,
        firstOccurrence_append_of_not_mem hl]
      change (firstOccurrence blankLine (13 :: 10 :: c :: t')).map _ = _
      rw [hskip, ← ht', ih]
      simp [crlf]
      omega

theorem firstOccurrence_crlf {l : List UInt8} (h : 13 ∉ l) (rest : List UInt8) :
    firstOccurrence crlf (l ++ crlf ++ rest) = some l.length := by
  rw [List.append_assoc, crlf, firstOccurrence_append_of_not_mem h,
    firstOccurrence_zero (by simp) (by simp)]
  simp

theorem version_no_whitespace : ∀ c ∈ versionPrefix, isWhitespace c = false := by
  have hall : versionPrefix.all (fun c => !isWhitespace c) = true := by decide
  simpa using hall

theorem splitWhitespace_statusLine (s : StatusLine) :
    (splitWhitespace s.text)[1]? = some s.code := by
  have hcode : ∀ c ∈ s.code, isWhitespace c = false := by
    intro c hc
    obtain ⟨d, hd⟩ := digit_of_mem_numeral s.code_value hc
    simpa using digit_not_whitespace hd
  have hversion : ∀ c ∈ versionPrefix ++ [s.minor], isWhitespace c = false := by
    intro c hc
    rcases List.mem_append.mp hc with hc | hc
    · exact version_no_whitespace c hc
    · obtain ⟨d, hd⟩ := Option.isSome_iff_exists.mp s.minor_digit
      rw [List.mem_singleton.mp hc]
      simpa using digit_not_whitespace hd
  have hspace : isWhitespace ' ' = true := by decide
  have hne := numeral_ne_nil s.code_value
  have hrest : ∃ more, (s.code ++ s.tail).splitOnP isWhitespace = s.code :: more := by
    rcases s.tail_reason with h | ⟨reason, h⟩
    · exact ⟨[], by rw [h, List.append_nil, List.splitOnP_eq_singleton hcode]⟩
    · exact ⟨_, by rw [h, List.splitOnP_append_cons_of_forall_mem hcode _ hspace]⟩
  obtain ⟨more, hmore⟩ := hrest
  have htext : s.text = versionPrefix ++ [s.minor] ++ ' ' :: (s.code ++ s.tail) := by
    simp only [StatusLine.text, List.append_assoc, List.cons_append]
  rw [splitWhitespace, htext, List.splitOnP_append_cons_of_forall_mem hversion _ hspace, hmore]
  simp [hne]

theorem status_parses (s : StatusLine) :
    (splitWhitespace s.text)[1]?.bind (parseUnsigned 10 (2 ^ 16)) = some s.status := by
  rw [splitWhitespace_statusLine, Option.bind_some]
  have hlt := numeral_lt s.code_value
  rw [s.code_length] at hlt
  exact parseUnsigned_of_numeral s.code_value (by omega)

theorem version_no_cr : '\r' ∉ versionPrefix := by
  decide

theorem statusLine_no_cr (s : StatusLine) : '\r' ∉ s.text := by
  obtain ⟨d, hd⟩ := Option.isSome_iff_exists.mp s.minor_digit
  have hnone : digitValue 10 '\r' = none := by decide
  have hminor : '\r' ≠ s.minor := by
    intro h
    rw [← h, hnone] at hd
    exact Option.some_ne_none d hd.symm
  have hcode := numeral_not_mem s.code_value hnone
  simp only [StatusLine.text, List.mem_append, List.mem_cons, List.not_mem_nil, or_false, not_or]
  exact ⟨⟨⟨version_no_cr, hminor⟩, by decide, hcode⟩, s.no_cr⟩

theorem blank_no_cr {cs : List Char} (h : IsBlank cs) : '\r' ∉ cs := fun hmem => by
  rcases h _ hmem with h | h <;> cases h

theorem lengthField_no_cr {n : ℕ} (f : LengthField n) : '\r' ∉ f.text := by
  have hname := not_mem_of_eqIgnoreAsciiCase f.name_eq (by decide : '\r'.toLower = '\r')
    (by decide)
  have hdigits := numeral_not_mem f.value (by decide : digitValue 10 '\r' = none)
  simp only [LengthField.text, List.mem_append, List.mem_cons, not_or]
  exact ⟨hname, by decide, ⟨blank_no_cr f.lead_blank, hdigits⟩, blank_no_cr f.trail_blank⟩

theorem chunkedField_no_cr (f : ChunkedField) : '\r' ∉ f.text := by
  have hname := not_mem_of_eqIgnoreAsciiCase f.name_eq (by decide : '\r'.toLower = '\r')
    (by decide)
  have hcoding := not_mem_of_eqIgnoreAsciiCase f.coding_eq (by decide : '\r'.toLower = '\r')
    (by decide)
  have hlist := f.no_cr
  simp only [List.mem_append, not_or] at hlist
  simp only [ChunkedField.text, List.mem_append, List.mem_cons, not_or]
  exact ⟨hname, by decide, ⟨hlist.1, ⟨blank_no_cr f.lead_blank, hcoding⟩,
    blank_no_cr f.trail_blank⟩, hlist.2⟩

theorem splitOnce_lengthField {n : ℕ} (f : LengthField n) :
    splitOnce ':' f.text = some (f.name, f.lead ++ f.digits ++ f.trail) :=
  splitOnce_append (not_mem_of_eqIgnoreAsciiCase f.name_eq (by decide) (by decide))

theorem splitOnce_chunkedField (f : ChunkedField) :
    splitOnce ':' f.text =
      some (f.name, f.front ++ (f.lead ++ f.coding ++ f.trail) ++ f.back) :=
  splitOnce_append (not_mem_of_eqIgnoreAsciiCase f.name_eq (by decide) (by decide))

theorem headersHaveToken_append (as bs : List (List Char)) (name token : String) :
    headersHaveToken (as ++ bs) name token =
      (headersHaveToken as name token || headersHaveToken bs name token) := by
  simp [headersHaveToken]

theorem headerValue_append (as bs : List (List Char)) (name : String) :
    headerValue (as ++ bs) name = (headerValue as name).or (headerValue bs name) := by
  simp [headerValue, List.findSome?_append]

theorem headersHaveToken_none {line : List Char} (name token : String)
    (hs : splitOnce ':' line = none) : headersHaveToken [line] name token = false := by
  simp [headersHaveToken, hs]

theorem headersHaveToken_of_ne {line n v : List Char} {name : String} (token : String)
    (hs : splitOnce ':' line = some (n, v)) (hn : eqIgnoreAsciiCase n name.toList = false) :
    headersHaveToken [line] name token = false := by
  simp [headersHaveToken, hs, hn]

theorem headersHaveToken_of_mem {line n v t : List Char} {name token : String}
    (hs : splitOnce ':' line = some (n, v)) (hn : eqIgnoreAsciiCase n name.toList)
    (ht : t ∈ (v.splitOn ',').map trim) (htoken : eqIgnoreAsciiCase t token.toList) :
    headersHaveToken [line] name token = true := by
  simp only [headersHaveToken, List.filterMap_cons, hs, List.filterMap_nil, List.filter_cons, hn,
    if_true, List.filter_nil, List.flatMap_cons, List.flatMap_nil, List.append_nil,
    List.any_eq_true]
  exact ⟨t, ht, htoken⟩

theorem headerValue_none {line : List Char} (name : String)
    (hs : splitOnce ':' line = none) : headerValue [line] name = none := by
  simp [headerValue, hs]

theorem headerValue_of_ne {line n v : List Char} {name : String}
    (hs : splitOnce ':' line = some (n, v)) (hn : eqIgnoreAsciiCase n name.toList = false) :
    headerValue [line] name = none := by
  simp [headerValue, hs, hn]

theorem headerValue_of_eq {line n v : List Char} {name : String}
    (hs : splitOnce ':' line = some (n, v)) (hn : eqIgnoreAsciiCase n name.toList) :
    headerValue [line] name = some (trim v) := by
  simp [headerValue, hs, hn]

theorem plain_no_chunked {ls : List Line} (h : ∀ l ∈ ls, ¬ l.AddsFraming) :
    headersHaveToken (ls.map Line.text) "transfer-encoding" "chunked" = false := by
  induction ls with
  | nil => rfl
  | cons l ls ih =>
    have ih := ih fun x hx => h x (List.mem_cons_of_mem _ hx)
    rw [List.map_cons, ← List.singleton_append, headersHaveToken_append, ih, Bool.or_false]
    cases hs : splitOnce ':' l.text with
    | none => exact headersHaveToken_none _ _ hs
    | some nv =>
      apply headersHaveToken_of_ne _ hs
      exact Bool.eq_false_iff.mpr fun he => h l (by simp) ⟨nv.1, nv.2, hs, Or.inr he⟩

theorem plain_no_length {ls : List Line} (h : ∀ l ∈ ls, ¬ l.AddsFraming) :
    headerValue (ls.map Line.text) "content-length" = none := by
  induction ls with
  | nil => rfl
  | cons l ls ih =>
    have ih := ih fun x hx => h x (List.mem_cons_of_mem _ hx)
    rw [List.map_cons, ← List.singleton_append, headerValue_append, ih, Option.or_none]
    cases hs : splitOnce ':' l.text with
    | none => exact headerValue_none _ hs
    | some nv =>
      apply headerValue_of_ne hs
      exact Bool.eq_false_iff.mpr fun he => h l (by simp) ⟨nv.1, nv.2, hs, Or.inl he⟩

theorem lengthField_no_chunked {n : ℕ} (f : LengthField n) :
    headersHaveToken [f.text] "transfer-encoding" "chunked" = false := by
  apply headersHaveToken_of_ne _ (splitOnce_lengthField f)
  have h := f.name_eq
  simp only [eqIgnoreAsciiCase, decide_eq_true_eq] at h
  rw [eqIgnoreAsciiCase, h]
  decide

theorem lengthField_value {n : ℕ} (f : LengthField n) :
    headerValue [f.text] "content-length" = some f.digits := by
  have htrim : trim (f.lead ++ f.digits ++ f.trail) = f.digits := by
    apply trim_word (blank_isWhitespace f.lead_blank) _ (blank_isWhitespace f.trail_blank)
    intro c hc
    obtain ⟨d, hd⟩ := digit_of_mem_numeral f.value hc
    exact digit_not_whitespace hd
  rw [headerValue_of_eq (splitOnce_lengthField f) f.name_eq, htrim]

theorem mem_splitOn {front m back : List Char} (hfront : front = [] ∨ ∃ a, front = a ++ [','])
    (hm : ',' ∉ m) (hback : back = [] ∨ ∃ b, back = ',' :: b) :
    m ∈ (front ++ m ++ back).splitOn ',' := by
  have hall : ∀ c ∈ m, (c == ',') = false := fun c hc => by
    simpa using ne_of_mem_of_not_mem hc hm
  have hmb : m ∈ (m ++ back).splitOnP (· == ',') := by
    rcases hback with rfl | ⟨b, rfl⟩
    · rw [List.append_nil, List.splitOnP_eq_singleton hall]
      exact List.mem_singleton_self m
    · rw [List.splitOnP_append_cons_of_forall_mem hall _ (by simp)]
      exact List.mem_cons_self
  rcases hfront with rfl | ⟨a, rfl⟩
  · exact hmb
  · have : a ++ [','] ++ m ++ back = a ++ ',' :: (m ++ back) := by simp
    rw [this, List.splitOn, List.splitOnP_append_cons _ _ (by simp)]
    exact List.mem_append_right _ hmb

theorem toLower_of_isWhitespace {c : Char} (h : isWhitespace c) : c.toLower = c := by
  have hc : ¬ (c.val ≥ 'A'.val ∧ c.val ≤ 'Z'.val) := by
    simp only [isWhitespace, Char.toNat, Bool.or_eq_true, Bool.and_eq_true, decide_eq_true_eq,
      ge_iff_le, UInt32.le_iff_toNat_le] at h ⊢
    have h65 : 'A'.val.toNat = 65 := rfl
    have h90 : 'Z'.val.toNat = 90 := rfl
    omega
  exact dif_neg hc

theorem word_no_whitespace {a b : List Char} (h : eqIgnoreAsciiCase a b)
    (hb : ∀ c ∈ b.map Char.toLower, ¬ isWhitespace c) : ∀ c ∈ a, ¬ isWhitespace c := by
  intro c hc hw
  have heq : a.map Char.toLower = b.map Char.toLower := by simpa [eqIgnoreAsciiCase] using h
  apply hb c _ hw
  rw [← heq, ← toLower_of_isWhitespace hw]
  exact List.mem_map_of_mem hc

theorem blank_no_comma {cs : List Char} (h : IsBlank cs) : ',' ∉ cs := by
  intro hmem
  cases h _ hmem with
  | inl h => cases h
  | inr h => cases h

theorem chunkedField_chunked (f : ChunkedField) :
    headersHaveToken [f.text] "transfer-encoding" "chunked" = true := by
  have htrim : trim (f.lead ++ f.coding ++ f.trail) = f.coding := by
    apply trim_word (blank_isWhitespace f.lead_blank) _ (blank_isWhitespace f.trail_blank)
    have hall : ("chunked".toList.map Char.toLower).all (fun c => !isWhitespace c) = true := by
      decide
    exact word_no_whitespace f.coding_eq (by simpa using hall)
  have hcomma : ',' ∉ f.lead ++ f.coding ++ f.trail := by
    have hc := not_mem_of_eqIgnoreAsciiCase f.coding_eq (by decide : ','.toLower = ',')
      (by decide)
    simp only [List.mem_append, not_or]
    exact ⟨⟨blank_no_comma f.lead_blank, hc⟩, blank_no_comma f.trail_blank⟩
  have hmem := mem_splitOn f.front_list hcomma f.back_list
  apply headersHaveToken_of_mem (splitOnce_chunkedField f) f.name_eq _ f.coding_eq
  exact List.mem_map.mpr ⟨_, hmem, htrim⟩

def framing : Body → BodyFraming
  | .sized payload _ _ => .contentLength payload.length
  | .chunked _ _ _ => .chunked
  | .untilClose _ => .closeDelimited

theorem bodyFraming_headerTexts (r : Response) : bodyFraming r.headerTexts = framing r.body := by
  have hchunked : headersHaveToken r.headerTexts "transfer-encoding" "chunked" =
      headersHaveToken r.body.fieldText.toList "transfer-encoding" "chunked" := by
    rw [Response.headerTexts, headersHaveToken_append, headersHaveToken_append,
      plain_no_chunked r.before_plain, plain_no_chunked r.after_plain, Bool.false_or,
      Bool.or_false]
  have hlength : headerValue r.headerTexts "content-length" =
      headerValue r.body.fieldText.toList "content-length" := by
    rw [Response.headerTexts, headerValue_append, headerValue_append,
      plain_no_length r.before_plain, plain_no_length r.after_plain, Option.none_or,
      Option.or_none]
  rw [bodyFraming, hchunked, hlength]
  cases r.body with
  | sized payload hlt field =>
    rw [Body.fieldText, Option.toList_some, lengthField_no_chunked, lengthField_value,
      Option.bind_some, parseUnsigned_of_numeral field.value hlt]
    rfl
  | chunked chunks last field =>
    rw [Body.fieldText, Option.toList_some, chunkedField_chunked, if_pos rfl, framing]
  | untilClose payload => rfl

theorem headTexts_no_cr (r : Response) :
    ∀ l ∈ r.statusLine.text :: r.headerTexts, '\r' ∉ l := by
  intro l hl
  rcases List.mem_cons.mp hl with rfl | hl
  · exact statusLine_no_cr _
  · simp only [Response.headerTexts, List.mem_append, List.mem_map] at hl
    rcases hl with (⟨x, -, rfl⟩ | hl) | ⟨x, -, rfl⟩
    · exact x.no_cr
    · cases hb : r.body with
      | sized payload hlt field =>
        rw [hb] at hl
        obtain rfl := List.mem_singleton.mp hl
        exact lengthField_no_cr field
      | chunked chunks last field =>
        rw [hb] at hl
        obtain rfl := List.mem_singleton.mp hl
        exact chunkedField_no_cr field
      | untilClose payload => simp [hb, Body.fieldText] at hl
    · exact x.no_cr

theorem headTexts_ne_nil (r : Response) :
    ∀ l ∈ r.statusLine.text :: r.headerTexts, l ≠ [] := by
  intro l hl
  rcases List.mem_cons.mp hl with rfl | hl
  · simp [StatusLine.text]
  · simp only [Response.headerTexts, List.mem_append, List.mem_map] at hl
    rcases hl with (⟨x, -, rfl⟩ | hl) | ⟨x, -, rfl⟩
    · exact x.ne_nil
    · cases hb : r.body with
      | sized payload hlt field =>
        rw [hb] at hl
        obtain rfl := List.mem_singleton.mp hl
        simp [LengthField.text]
      | chunked chunks last field =>
        rw [hb] at hl
        obtain rfl := List.mem_singleton.mp hl
        simp [ChunkedField.text]
      | untilClose payload => simp [hb, Body.fieldText] at hl
    · exact x.ne_nil

theorem parseResponseHead_head (r : Response) :
    ∃ close, parseResponseHead r.head = .ok ⟨r.statusLine.status, close, framing r.body⟩ := by
  refine ⟨headersHaveToken r.headerTexts "connection" "close" ||
    ("HTTP/1.0".toList.isPrefixOf r.statusLine.text &&
      !headersHaveToken r.headerTexts "connection" "keep-alive"), ?_⟩
  simp only [parseResponseHead, Response.head, decodeUtf8_encodeUtf8,
    splitCrlf_intercalate (List.cons_ne_nil _ _) (headTexts_no_cr r), status_parses,
    bodyFraming_headerTexts]

theorem findBytes_head (r : Response) (rest : List UInt8) :
    findBytes (r.head ++ blankLine ++ rest) blankLine = some r.head.length := by
  have hcr : ∀ l ∈ (r.statusLine.text :: r.headerTexts).map encodeUtf8, (13 : UInt8) ∉ l := by
    intro l hl
    obtain ⟨text, htext, rfl⟩ := List.mem_map.mp hl
    exact not_mem_encodeUtf8 (by decide) rfl (headTexts_no_cr r text htext)
  have hnil : ∀ l ∈ (r.statusLine.text :: r.headerTexts).map encodeUtf8, l ≠ [] := by
    intro l hl
    obtain ⟨text, htext, rfl⟩ := List.mem_map.mp hl
    exact encodeUtf8_ne_nil (headTexts_ne_nil r text htext)
  rw [findBytes, Response.head, encodeUtf8_intercalate]
  exact firstOccurrence_blankLine (by simp) hnil hcr rest

end Rload.ResponseFraming
