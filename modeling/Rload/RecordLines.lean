import Rload.SkippedRecords

/-!
# Records and their lines

Reading lines gives the records of a file back, however they are terminated, as long as none is
too long together with its terminator. A record that is longer than the limit is refused under
every terminator.
-/

namespace Rload.RequestFile
open TextScanning

theorem length_rest_lt {bytes rest : List UInt8} {lineNumber : ℕ} {line : List Char}
    (h : readLine bytes lineNumber = .ok (some (line, rest))) : rest.length < bytes.length := by
  by_cases hnil : bytes = []
  · subst hnil
    cases h
  · rw [readLine_eq hnil] at h
    have hpos := List.length_pos_of_ne_nil (firstLine_ne_nil hnil)
    have hpos' := List.length_pos_of_ne_nil hnil
    cases hrecord : recordText (firstLine bytes) with
    | error fault => simp only [hrecord, reduceCtorEq] at h
    | ok text =>
      simp only [hrecord, Except.ok.injEq, Option.some.injEq, Prod.mk.injEq] at h
      rw [← h.2, List.length_drop]
      omega

/-- The lines that `read_line` returns one after the other, with their numbers. -/
def readLines (bytes : List UInt8) (lineNumber : ℕ) :
    Except InvalidRecord (List (ℕ × List Char)) :=
  match h : readLine bytes lineNumber with
  | .error e => .error e
  | .ok none => .ok []
  | .ok (some (line, rest)) =>
    (readLines rest (lineNumber + 1)).map ((lineNumber + 1, line) :: ·)
  termination_by bytes.length
  decreasing_by exact length_rest_lt h

inductive Terminator where
  | lf | crlf
  deriving DecidableEq, Repr

def Terminator.bytes : Terminator → List UInt8
  | .lf => [10]
  | .crlf => [13, 10]

/-- A text without a line feed and without a carriage return at its end. -/
structure IsRecord (text : List Char) : Prop where
  noLineFeed : '\n' ∉ text
  noReturn : text.getLast? ≠ some '\r'

/-- Records, each with its terminator. -/
def terminated (records : List (List Char × Terminator)) : List UInt8 :=
  records.flatMap fun (text, terminator) => encodeUtf8 text ++ terminator.bytes

/-- The records of a file, with the last one if it is not terminated. -/
def fileBytes (records : List (List Char × Terminator)) (last : List Char) : List UInt8 :=
  terminated records ++ encodeUtf8 last

/-- The lines with their numbers. -/
def numbered (lineNumber : ℕ) : List (List Char) → List (ℕ × List Char)
  | [] => []
  | line :: lines => (lineNumber + 1, line) :: numbered (lineNumber + 1) lines

def recordTexts (records : List (List Char × Terminator)) (last : List Char) : List (List Char) :=
  records.map Prod.fst ++ if last = [] then [] else [last]

/-- The record fits in with its terminator. -/
def Fits (record : List Char × Terminator) : Prop :=
  (encodeUtf8 record.1).length + record.2.bytes.length ≤ maxLineBytes

variable {text : List Char}

theorem not_mem_lf (h : '\n' ∉ text) : 10 ∉ encodeUtf8 text :=
  not_mem_encodeUtf8 (by decide) rfl h

theorem getLast?_encodeUtf8 (h : IsRecord text) : (encodeUtf8 text).getLast? ≠ some 13 := by
  intro hlast
  obtain rfl | ⟨init, c, rfl⟩ := List.eq_nil_or_concat text
  · cases hlast
  · rw [List.concat_eq_append, encodeUtf8_append] at hlast
    have hc : encodeUtf8 [c] = String.utf8EncodeChar c := List.append_nil _
    have hne : encodeUtf8 [c] ≠ [] := encodeUtf8_ne_nil (List.cons_ne_nil c [])
    rw [List.getLast?_append_of_ne_nil _ hne, hc] at hlast
    have hval := eq_of_mem_utf8EncodeChar (by decide) (List.mem_of_getLast? hlast)
    have hreturn : c = '\r' := Char.ext (UInt32.toNat_inj.mp hval)
    apply h.noReturn
    rw [hreturn, List.concat_eq_append, List.getLast?_append_of_ne_nil _ (List.cons_ne_nil _ _)]
    rfl

theorem withoutEnding_terminated (h : IsRecord text) (terminator : Terminator) :
    withoutEnding (encodeUtf8 text ++ terminator.bytes) = encodeUtf8 text := by
  have hlast := getLast?_encodeUtf8 h
  cases terminator with
  | lf =>
    rw [withoutEnding, Terminator.bytes, List.getLast?_concat, if_pos rfl, List.dropLast_concat,
      if_neg hlast]
  | crlf =>
    have hbytes : encodeUtf8 text ++ Terminator.crlf.bytes = encodeUtf8 text ++ [13] ++ [10] := by
      rw [List.append_assoc]
      rfl
    rw [hbytes, withoutEnding, List.getLast?_concat, if_pos rfl, List.dropLast_concat,
      List.getLast?_concat, if_pos rfl, List.dropLast_concat]

theorem withoutEnding_last (h : IsRecord text) :
    withoutEnding (encodeUtf8 text) = encodeUtf8 text := by
  have hfeed : (encodeUtf8 text).getLast? ≠ some 10 := by
    intro hlast
    exact not_mem_lf h.noLineFeed (List.mem_of_getLast? hlast)
  rw [withoutEnding, if_neg hfeed, if_neg (getLast?_encodeUtf8 h)]

theorem firstLine_of_not_mem {bytes : List UInt8} (h : 10 ∉ bytes) : firstLine bytes = bytes := by
  induction bytes with
  | nil => rfl
  | cons b bytes ih =>
    rw [List.mem_cons, not_or] at h
    rw [firstLine, if_neg (Ne.symm h.1), ih h.2]

theorem firstLine_append {bytes : List UInt8} (h : 10 ∉ bytes) (rest : List UInt8) :
    firstLine (bytes ++ 10 :: rest) = bytes ++ [10] := by
  induction bytes with
  | nil => rfl
  | cons b bytes ih =>
    rw [List.mem_cons, not_or] at h
    rw [List.cons_append, firstLine, if_neg (Ne.symm h.1), ih h.2]
    rfl

theorem firstLine_terminated {bytes : List UInt8} (h : 10 ∉ bytes) (terminator : Terminator)
    (rest : List UInt8) :
    firstLine (bytes ++ terminator.bytes ++ rest) = bytes ++ terminator.bytes := by
  cases terminator with
  | lf =>
    rw [List.append_assoc]
    exact firstLine_append h rest
  | crlf =>
    have hreturn : 10 ∉ bytes ++ [13] := by
      simpa using h
    have hbytes : bytes ++ Terminator.crlf.bytes = bytes ++ [13] ++ [10] := by
      rw [List.append_assoc]
      rfl
    rw [hbytes, List.append_assoc (_ ++ [13])]
    exact firstLine_append hreturn rest

theorem readLine_terminated (h : IsRecord text) {terminator : Terminator}
    (hfits : Fits (text, terminator)) (rest : List UInt8) (lineNumber : ℕ) :
    readLine (encodeUtf8 text ++ terminator.bytes ++ rest) lineNumber =
      .ok (some (text, rest)) := by
  have hne : encodeUtf8 text ++ terminator.bytes ++ rest ≠ [] := by
    cases terminator <;> simp [Terminator.bytes]
  have hlength : ¬ maxLineBytes < (encodeUtf8 text ++ terminator.bytes).length := by
    rw [List.length_append]
    exact Nat.not_lt_of_le hfits
  rw [readLine_eq hne, firstLine_terminated (not_mem_lf h.noLineFeed), recordText, if_neg hlength,
    withoutEnding_terminated h, decodeUtf8_encodeUtf8]
  simp only [List.drop_left]

theorem readLine_tooLong {bytes : List UInt8} (h : maxLineBytes < (firstLine bytes).length)
    (lineNumber : ℕ) : readLine bytes lineNumber = .error ⟨lineNumber + 1, .tooLong⟩ := by
  have hne : bytes ≠ [] := by
    rintro rfl
    exact absurd h (Nat.not_lt_zero _)
  rw [readLine_eq hne, recordText, if_pos h]

theorem readLine_last (h : IsRecord text) (hne : text ≠ [])
    (hlength : (encodeUtf8 text).length ≤ maxLineBytes) (lineNumber : ℕ) :
    readLine (encodeUtf8 text) lineNumber = .ok (some (text, [])) := by
  rw [readLine_eq (encodeUtf8_ne_nil hne), firstLine_of_not_mem (not_mem_lf h.noLineFeed),
    recordText, if_neg (Nat.not_lt_of_le hlength), withoutEnding_last h, decodeUtf8_encodeUtf8]
  simp only [List.drop_length]

/-- Longer bytes than the limit are refused, whatever ends them. -/
def RejectsLong : Prop :=
  ∀ bytes : List UInt8, 10 ∉ bytes → maxLineBytes < bytes.length → ∀ lineNumber,
    readLine bytes lineNumber = .error ⟨lineNumber + 1, .tooLong⟩ ∧
      ∀ (terminator : Terminator) (rest : List UInt8),
        readLine (bytes ++ terminator.bytes ++ rest) lineNumber =
          .error ⟨lineNumber + 1, .tooLong⟩

theorem rejectsLong : RejectsLong := by
  intro bytes hnot hlong lineNumber
  constructor
  · apply readLine_tooLong
    rwa [firstLine_of_not_mem hnot]
  · intro terminator rest
    apply readLine_tooLong
    rw [firstLine_terminated hnot, List.length_append]
    omega

theorem readLines_nil (lineNumber : ℕ) : readLines [] lineNumber = .ok [] := by
  rw [readLines]
  rfl

theorem readLines_of_ok {bytes rest : List UInt8} {lineNumber : ℕ} {line : List Char}
    (h : readLine bytes lineNumber = .ok (some (line, rest))) :
    readLines bytes lineNumber =
      (readLines rest (lineNumber + 1)).map ((lineNumber + 1, line) :: ·) := by
  rw [readLines]
  split
  · rename_i e heq
    cases heq.symm.trans h
  · rename_i heq
    cases heq.symm.trans h
  · rename_i line' rest' heq
    cases heq.symm.trans h
    rfl

theorem readLines_of_error {bytes : List UInt8} {lineNumber : ℕ} {e : InvalidRecord}
    (h : readLine bytes lineNumber = .error e) : readLines bytes lineNumber = .error e := by
  rw [readLines]
  split
  · rename_i e' heq
    cases heq.symm.trans h
    rfl
  · rename_i heq
    cases heq.symm.trans h
  · rename_i line rest heq
    cases heq.symm.trans h

theorem fileBytes_cons (record : List Char × Terminator)
    (records : List (List Char × Terminator)) (last : List Char) :
    fileBytes (record :: records) last =
      encodeUtf8 record.1 ++ record.2.bytes ++ fileBytes records last := by
  rw [fileBytes, terminated, List.flatMap_cons, List.append_assoc]
  rfl

variable {records : List (List Char × Terminator)} {last : List Char}

theorem readLines_last (h : IsRecord last) (hlength : (encodeUtf8 last).length ≤ maxLineBytes)
    (lineNumber : ℕ) :
    readLines (encodeUtf8 last) lineNumber = .ok (numbered lineNumber (recordTexts [] last)) := by
  by_cases hnil : last = []
  · rw [hnil]
    exact readLines_nil lineNumber
  · rw [readLines_of_ok (readLine_last h hnil hlength lineNumber), readLines_nil, recordTexts,
      if_neg hnil]
    rfl

/-- Records that fit with their terminators are read back. -/
theorem readLines_of_fits (hrecords : ∀ record ∈ records, IsRecord record.1)
    (hlast : IsRecord last) (hlength : (encodeUtf8 last).length ≤ maxLineBytes)
    (hfits : ∀ record ∈ records, Fits record) (lineNumber : ℕ) :
    readLines (fileBytes records last) lineNumber =
      .ok (numbered lineNumber (recordTexts records last)) := by
  induction records generalizing lineNumber with
  | nil => exact readLines_last hlast hlength lineNumber
  | cons record records ih =>
    obtain ⟨hrecord, hrecords⟩ := List.forall_mem_cons.mp hrecords
    obtain ⟨hfit, hfits⟩ := List.forall_mem_cons.mp hfits
    have hline := readLine_terminated hrecord hfit (fileBytes records last) lineNumber
    rw [fileBytes_cons, readLines_of_ok hline, ih hrecords hfits]
    rfl

/-- The first record that does not fit ends the reading. -/
theorem readLines_of_not_fits (hrecords : ∀ record ∈ records, IsRecord record.1)
    (hlong : ∃ record ∈ records, ¬ Fits record) (lineNumber : ℕ) :
    ∃ e, readLines (fileBytes records last) lineNumber = .error e := by
  induction records generalizing lineNumber with
  | nil =>
    obtain ⟨record, hmem, -⟩ := hlong
    exact absurd hmem List.not_mem_nil
  | cons record records ih =>
    obtain ⟨hrecord, hrecords⟩ := List.forall_mem_cons.mp hrecords
    rw [fileBytes_cons]
    by_cases hfit : Fits record
    · have hrest := (List.exists_mem_cons_iff _ _ _).mp hlong
      obtain ⟨e, he⟩ := ih hrecords (hrest.resolve_left fun hnot => hnot hfit) (lineNumber + 1)
      have hline := readLine_terminated hrecord hfit (fileBytes records last) lineNumber
      rw [readLines_of_ok hline, he]
      exact ⟨e, rfl⟩
    · refine ⟨_, readLines_of_error (readLine_tooLong ?_ lineNumber)⟩
      rw [firstLine_terminated (not_mem_lf hrecord.noLineFeed), List.length_append]
      exact Nat.lt_of_not_le hfit

/-- Records of up to the limit are read back if and only if each is so with its terminator, and
longer ones are refused. -/
theorem records_read_back_iff (hrecords : ∀ record ∈ records, IsRecord record.1)
    (hlast : IsRecord last)
    (hlimit : ∀ text ∈ recordTexts records last, (encodeUtf8 text).length ≤ maxLineBytes) :
    (readLines (fileBytes records last) 0 = .ok (numbered 0 (recordTexts records last)) ∧
        RejectsLong) ↔
      ∀ record ∈ records,
        (encodeUtf8 record.1).length + record.2.bytes.length ≤ maxLineBytes := by
  have hlength : (encodeUtf8 last).length ≤ maxLineBytes := by
    by_cases hnil : last = []
    · rw [hnil]
      exact Nat.zero_le _
    · apply hlimit
      rw [recordTexts, if_neg hnil]
      exact List.mem_append_right _ List.mem_cons_self
  constructor
  · rintro ⟨hread, -⟩ record hmem
    by_contra hlong
    have herror : ∃ e, readLines (fileBytes records last) 0 = .error e :=
      readLines_of_not_fits hrecords ⟨record, hmem, hlong⟩ 0
    obtain ⟨e, he⟩ := herror
    rw [he] at hread
    cases hread
  · intro hfits
    exact ⟨readLines_of_fits hrecords hlast hlength hfits 0, rejectsLong⟩

theorem records_read_back_three :
    (readLines (fileBytes [(['a'], .crlf), ([], .lf)] ['b']) 0 =
        .ok (numbered 0 (recordTexts [(['a'], .crlf), ([], .lf)] ['b'])) ∧ RejectsLong) ↔
      ∀ record ∈ [(['a'], Terminator.crlf), ([], .lf)],
        (encodeUtf8 record.1).length + record.2.bytes.length ≤ maxLineBytes := by
  have hrecord : ∀ text ∈ [['a'], [], ['b']], IsRecord text := by
    rw [List.forall_mem_cons, List.forall_mem_cons, List.forall_mem_singleton]
    exact ⟨⟨by decide, by decide⟩, ⟨by decide, by decide⟩, ⟨by decide, by decide⟩⟩
  refine records_read_back_iff ?_ (hrecord _ (by simp)) ?_
  · rw [List.forall_mem_cons, List.forall_mem_singleton]
    exact ⟨hrecord _ (by simp), hrecord _ (by simp)⟩
  · have htexts : ∀ text ∈ [['a'], [], ['b']], (encodeUtf8 text).length ≤ maxLineBytes := by
      rw [List.forall_mem_cons, List.forall_mem_cons, List.forall_mem_singleton]
      exact ⟨by decide, by decide, by decide⟩
    exact htexts

/-- A record of exactly the limit. -/
def limitRecord : List Char := List.replicate maxLineBytes 'x'

theorem length_limitRecord : (encodeUtf8 limitRecord).length = maxLineBytes := by
  have hascii : ∀ c ∈ limitRecord, c.toNat < 128 := by
    intro c hc
    rw [List.eq_of_mem_replicate hc]
    decide
  rw [length_encodeUtf8 hascii]
  exact List.length_replicate

theorem isRecord_limitRecord : IsRecord limitRecord := by
  constructor
  · intro hmem
    exact absurd (List.eq_of_mem_replicate hmem) (by decide)
  · intro hlast
    exact absurd (List.eq_of_mem_replicate (List.mem_of_getLast? hlast)) (by decide)

theorem fits_iff {terminator : Terminator} : Fits (text, terminator) ↔
    (encodeUtf8 text).length + terminator.bytes.length ≤ maxLineBytes := Iff.rfl

/-- A record as long as the limit is read without a terminator only. -/
theorem readLines_lf_ne (h : IsRecord text) (hlength : (encodeUtf8 text).length = maxLineBytes)
    (lines : List (ℕ × List Char)) : readLines (fileBytes [(text, .lf)] []) 0 ≠ .ok lines := by
  have hlong : ¬ Fits (text, .lf) := by
    have hone : Terminator.lf.bytes.length = 1 := rfl
    rw [fits_iff, hlength, hone]
    omega
  have herror : ∃ e, readLines (fileBytes [(text, .lf)] []) 0 = .error e := by
    refine readLines_of_not_fits ?_ ⟨_, List.mem_cons_self, hlong⟩ 0
    rw [List.forall_mem_singleton]
    exact h
  obtain ⟨e, he⟩ := herror
  rw [he]
  intro heq
  cases heq

theorem limitRecord_refused :
    IsRecord limitRecord ∧ (encodeUtf8 limitRecord).length ≤ maxLineBytes ∧
      ∀ lines, readLines (fileBytes [(limitRecord, .lf)] []) 0 ≠ .ok lines :=
  ⟨isRecord_limitRecord, length_limitRecord.le,
    readLines_lf_ne isRecord_limitRecord length_limitRecord⟩

end Rload.RequestFile
