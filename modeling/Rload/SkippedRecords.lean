import Rload.RequestFile

/-!
# Records that are skipped

Reading a file judges its lines one after the other. A record that is no JSON or no valid request
can be skipped; a line that is too long or is not UTF-8 ends the reading in any case.
-/

namespace Rload.RequestFile
open TextScanning

/-- The bytes up to the first line feed and with it, or all bytes. -/
def firstLine : List UInt8 → List UInt8
  | [] => []
  | b :: bytes => if b = 10 then [10] else b :: firstLine bytes

/-- The lines with their endings. -/
def rawLines : List UInt8 → List (List UInt8)
  | [] => []
  | b :: bytes =>
    if b = 10 then [10] :: rawLines bytes
    else
      match rawLines bytes with
      | [] => [[b]]
      | line :: lines => (b :: line) :: lines

theorem firstLine_eq (bytes : List UInt8) :
    firstLine bytes = bytes.takeWhile (· ≠ 10) ++ (bytes.dropWhile (· ≠ 10)).take 1 := by
  induction bytes with
  | nil => rfl
  | cons b bytes ih =>
    rw [firstLine]
    by_cases hb : b = 10
    · rw [if_pos hb, List.takeWhile_cons_of_neg (by simpa using hb),
        List.dropWhile_cons_of_neg (by simpa using hb), hb]
      rfl
    · rw [if_neg hb, List.takeWhile_cons_of_pos (by simpa using hb),
        List.dropWhile_cons_of_pos (by simpa using hb), ih]
      rfl

theorem firstLine_take (n : ℕ) (bytes : List UInt8) :
    firstLine (bytes.take n) = (firstLine bytes).take n := by
  induction bytes generalizing n with
  | nil => cases n <;> rfl
  | cons b bytes ih =>
    cases n with
    | zero => rfl
    | succ n =>
      rw [List.take_succ_cons, firstLine, firstLine, ih]
      by_cases hb : b = 10
      · rw [if_pos hb, if_pos hb, List.take_succ_cons, List.take_nil]
      · rw [if_neg hb, if_neg hb]
        rfl

theorem readUntil_eq (bytes : List UInt8) :
    readUntil bytes = (firstLine bytes).take (maxLineBytes + 1) := by
  rw [readUntil, ← firstLine_take, firstLine_eq]

theorem firstLine_ne_nil {bytes : List UInt8} (h : bytes ≠ []) : firstLine bytes ≠ [] := by
  cases bytes with
  | nil => exact absurd rfl h
  | cons b bytes =>
    rw [firstLine]
    split <;> exact List.cons_ne_nil _ _

/-- The first line, and the lines of what follows it. -/
theorem rawLines_eq {bytes : List UInt8} (h : bytes ≠ []) :
    rawLines bytes = firstLine bytes :: rawLines (bytes.drop (firstLine bytes).length) := by
  induction bytes with
  | nil => exact absurd rfl h
  | cons b bytes ih =>
    rw [rawLines, firstLine]
    by_cases hb : b = 10
    · rw [if_pos hb, if_pos hb]
      rfl
    · rw [if_neg hb, if_neg hb, List.length_cons, List.drop_succ_cons]
      cases bytes with
      | nil => rfl
      | cons c bytes => rw [ih (List.cons_ne_nil c bytes)]

/-- The text of a line, if it can be read. -/
def recordText (raw : List UInt8) : Except RecordFault (List Char) :=
  if maxLineBytes < raw.length then .error .tooLong
  else
    match decodeUtf8 (withoutEnding raw) with
    | none => .error .notUtf8
    | some line => .ok line

/-- A line that is not too long and is UTF-8. -/
def IsReadable (raw : List UInt8) : Prop :=
  raw.length ≤ maxLineBytes ∧ (decodeUtf8 (withoutEnding raw)).isSome = true

instance (raw : List UInt8) : Decidable (IsReadable raw) := inferInstanceAs (Decidable (_ ∧ _))

inductive Verdict where
  | unreadable (fault : RecordFault)
  | blank
  | invalid (e : InvalidRecord)
  | valid (request : ReplayRequest)

def Verdict.request? : Verdict → Option ReplayRequest
  | .valid request => some request
  | _ => none

/-- The record is not blank and not valid. -/
def Verdict.isInvalid : Verdict → Bool
  | .unreadable _ => true
  | .invalid _ => true
  | _ => false

section Verdicts

variable (decode : List Char → ℕ → Except InvalidRecord ReplayRequest)

def verdict (raw : List UInt8) (lineNumber : ℕ) : Verdict :=
  match recordText raw with
  | .error fault => .unreadable fault
  | .ok line =>
    if trim line = [] then .blank
    else
      match decode line lineNumber with
      | .error e => .invalid e
      | .ok request => .valid request

/-- The verdicts on the lines that follow the first `lineNumber` ones. -/
def verdictsFrom (lineNumber : ℕ) : List (List UInt8) → List Verdict
  | [] => []
  | raw :: lines => verdict decode raw (lineNumber + 1) :: verdictsFrom (lineNumber + 1) lines

def verdicts (bytes : List UInt8) : List Verdict := verdictsFrom decode 0 (rawLines bytes)

/-- The valid records, in the order of the file. -/
def validRequests (bytes : List UInt8) : List ReplayRequest :=
  (verdicts decode bytes).filterMap Verdict.request?

def invalidRecords (bytes : List UInt8) : ℕ := (verdicts decode bytes).countP Verdict.isInvalid

end Verdicts

/-- What becomes of the verdicts. -/
def settle (skipInvalidRecords : Bool) : ℕ → List Verdict → List ReplayRequest → SkippedRecords →
    Except FileFault RequestFileReplay
  | _, [], requests, skipped => finishRequests requests skipped
  | lineNumber, .unreadable fault :: _, _, _ => .error (.record ⟨lineNumber + 1, fault⟩)
  | lineNumber, .blank :: verdicts, requests, skipped =>
    settle skipInvalidRecords (lineNumber + 1) verdicts requests skipped
  | lineNumber, .valid request :: verdicts, requests, skipped =>
    settle skipInvalidRecords (lineNumber + 1) verdicts (requests ++ [request]) skipped
  | lineNumber, .invalid e :: verdicts, requests, skipped =>
    if skipInvalidRecords then
      settle skipInvalidRecords (lineNumber + 1) verdicts requests (e.fault ::ₘ skipped)
    else .error (.record e)

section Reading

variable {decode : List Char → ℕ → Except InvalidRecord ReplayRequest}

theorem readLine_eq {bytes : List UInt8} (h : bytes ≠ []) (lineNumber : ℕ) :
    readLine bytes lineNumber =
      match recordText (firstLine bytes) with
      | .error fault => .error ⟨lineNumber + 1, fault⟩
      | .ok line => .ok (some (line, bytes.drop (firstLine bytes).length)) := by
  have hne := firstLine_ne_nil h
  by_cases hlong : maxLineBytes < (firstLine bytes).length
  · have hlength : (readUntil bytes).length = maxLineBytes + 1 := by
      rw [readUntil_eq, List.length_take, Nat.min_eq_left hlong]
    have hread : readUntil bytes ≠ [] := by
      intro hnil
      rw [hnil] at hlength
      cases hlength
    have hlong' : maxLineBytes < (readUntil bytes).length := by omega
    simp only [readLine, recordText, if_pos hlong, if_neg hread, if_pos hlong']
  · have hread : readUntil bytes = firstLine bytes := by
      rw [readUntil_eq, List.take_of_length_le (by omega)]
    simp only [readLine, recordText, hread, if_neg hne, if_neg hlong]
    cases decodeUtf8 (withoutEnding (firstLine bytes)) <;> rfl

/-- The loop settles the verdicts on the lines. -/
theorem decodeLoop_eq {skip : Bool} {fuel : ℕ} {bytes : List UInt8} (hfuel : bytes.length < fuel)
    (lineNumber : ℕ) (requests : List ReplayRequest) (skipped : SkippedRecords) :
    decodeLoop decode skip fuel bytes lineNumber requests skipped =
      settle skip lineNumber (verdictsFrom decode lineNumber (rawLines bytes))
        requests skipped := by
  induction fuel generalizing bytes lineNumber requests skipped with
  | zero => exact absurd hfuel (Nat.not_lt_zero _)
  | succ fuel ih =>
    by_cases hnil : bytes = []
    · subst hnil
      rfl
    · have hrest : (bytes.drop (firstLine bytes).length).length < fuel := by
        have hpos := List.length_pos_of_ne_nil (firstLine_ne_nil hnil)
        have hpos' := List.length_pos_of_ne_nil hnil
        rw [List.length_drop]
        omega
      rw [decodeLoop, readLine_eq hnil, rawLines_eq hnil, verdictsFrom, verdict]
      cases recordText (firstLine bytes) with
      | error fault => rfl
      | ok line =>
        dsimp only
        by_cases hblank : trim line = []
        · rw [if_pos hblank, if_pos hblank, settle, ih hrest]
        · rw [if_neg hblank, if_neg hblank]
          cases decode line (lineNumber + 1) with
          | ok request => exact ih hrest _ _ _
          | error e =>
            dsimp only
            rw [settle]
            split
            · exact ih hrest _ _ _
            · rfl

theorem decodeRecords_eq (skip : Bool) (bytes : List UInt8) :
    decodeRecords decode skip bytes = settle skip 0 (verdicts decode bytes) [] 0 :=
  decodeLoop_eq (Nat.lt_succ_self _) 0 [] 0

end Reading

def Verdict.isUnreadable : Verdict → Bool
  | .unreadable _ => true
  | _ => false

/-- Where all lines can be read, the valid records are kept and the others are counted. -/
theorem settle_readable {vs : List Verdict} (h : ∀ v ∈ vs, v.isUnreadable = false)
    (lineNumber : ℕ) (requests : List ReplayRequest) (skipped : SkippedRecords) :
    ∃ skipped' : SkippedRecords, skipped'.total = skipped.total + vs.countP Verdict.isInvalid ∧
      settle true lineNumber vs requests skipped =
        finishRequests (requests ++ vs.filterMap Verdict.request?) skipped' := by
  induction vs generalizing lineNumber requests skipped with
  | nil => exact ⟨skipped, rfl, by rw [settle, List.filterMap_nil, List.append_nil]⟩
  | cons v vs ih =>
    rw [List.forall_mem_cons] at h
    cases v with
    | unreadable fault => cases h.1
    | blank =>
      obtain ⟨skipped', htotal, hsettle⟩ := ih h.2 (lineNumber + 1) requests skipped
      exact ⟨skipped', htotal, hsettle⟩
    | invalid e =>
      obtain ⟨skipped', htotal, hsettle⟩ := ih h.2 (lineNumber + 1) requests (e.fault ::ₘ skipped)
      refine ⟨skipped', ?_, hsettle⟩
      rw [htotal, SkippedRecords.total, SkippedRecords.total, Multiset.card_cons,
        List.countP_cons_of_pos rfl]
      omega
    | valid request =>
      obtain ⟨skipped', htotal, hsettle⟩ := ih h.2 (lineNumber + 1) (requests ++ [request]) skipped
      refine ⟨skipped', htotal, ?_⟩
      rw [settle, hsettle, List.append_assoc]
      rfl

/-- A line that cannot be read ends the reading. -/
theorem settle_unreadable {vs : List Verdict} (h : ∃ v ∈ vs, v.isUnreadable = true)
    (skip : Bool) (lineNumber : ℕ) (requests : List ReplayRequest) (skipped : SkippedRecords) :
    ∃ e, settle skip lineNumber vs requests skipped = .error e := by
  induction vs generalizing lineNumber requests skipped with
  | nil =>
    obtain ⟨v, hv, -⟩ := h
    exact absurd hv List.not_mem_nil
  | cons v vs ih =>
    rw [List.exists_mem_cons_iff] at h
    cases v with
    | unreadable fault => exact ⟨_, rfl⟩
    | blank => exact ih (h.resolve_left Bool.false_ne_true) _ _ _
    | valid request => exact ih (h.resolve_left Bool.false_ne_true) _ _ _
    | invalid e =>
      rw [settle]
      split
      · exact ih (h.resolve_left Bool.false_ne_true) _ _ _
      · exact ⟨_, rfl⟩

/-- What is accepted without skipping is read alike with it. -/
theorem settle_strict {vs : List Verdict} {lineNumber : ℕ} {requests : List ReplayRequest}
    {skipped : SkippedRecords} {replay : RequestFileReplay}
    (h : settle false lineNumber vs requests skipped = .ok replay) :
    settle true lineNumber vs requests skipped = .ok replay ∧ replay.skippedRecords = skipped := by
  induction vs generalizing lineNumber requests with
  | nil =>
    refine ⟨h, ?_⟩
    rw [settle, finishRequests] at h
    split at h
    · cases h
    · cases h
      rfl
  | cons v vs ih =>
    cases v with
    | unreadable fault => cases h
    | blank => exact ih h
    | valid request => exact ih h
    | invalid e => cases h

theorem finishRequests_eq_ok {requests : List ReplayRequest} {skipped : SkippedRecords}
    {replay : RequestFileReplay} (h : finishRequests requests skipped = .ok replay) :
    requests ≠ [] ∧ replay = ⟨requests, skipped⟩ := by
  rw [finishRequests] at h
  split at h
  · cases h
  · rename_i hne
    cases h
    exact ⟨hne, rfl⟩

section Skipping

variable (decode : List Char → ℕ → Except InvalidRecord ReplayRequest)

theorem isUnreadable_verdict (raw : List UInt8) (lineNumber : ℕ) :
    (verdict decode raw lineNumber).isUnreadable = false ↔ IsReadable raw := by
  rw [verdict, recordText, IsReadable]
  by_cases hlong : maxLineBytes < raw.length
  · rw [if_pos hlong]
    exact iff_of_false Bool.noConfusion fun h => absurd h.1 (Nat.not_le_of_lt hlong)
  · rw [if_neg hlong]
    cases hdecode : decodeUtf8 (withoutEnding raw) with
    | none => exact iff_of_false Bool.noConfusion fun h => Bool.false_ne_true h.2
    | some line =>
      refine iff_of_true ?_ ⟨Nat.le_of_not_lt hlong, rfl⟩
      dsimp only
      split
      · rfl
      · split <;> rfl

theorem readable_verdicts (bytes : List UInt8) :
    (∀ v ∈ verdicts decode bytes, v.isUnreadable = false) ↔
      ∀ raw ∈ rawLines bytes, IsReadable raw := by
  have hfrom : ∀ (lines : List (List UInt8)) (lineNumber : ℕ),
      (∀ v ∈ verdictsFrom decode lineNumber lines, v.isUnreadable = false) ↔
        ∀ raw ∈ lines, IsReadable raw := by
    intro lines
    induction lines with
    | nil =>
      intro lineNumber
      rw [verdictsFrom]
      exact iff_of_true (List.forall_mem_nil _) (List.forall_mem_nil _)
    | cons raw lines ih =>
      intro lineNumber
      rw [verdictsFrom, List.forall_mem_cons, List.forall_mem_cons, isUnreadable_verdict, ih]
  exact hfrom (rawLines bytes) 0

/-- Skipping fails only where no record is valid, and keeps all valid records and counts all
others; what is accepted without skipping is the same with it. -/
structure Skips (bytes : List UInt8) : Prop where
  fails_iff : (∃ e, decodeRecords decode true bytes = .error e) ↔ validRequests decode bytes = []
  keeps : ∀ replay, decodeRecords decode true bytes = .ok replay →
    replay.requests = validRequests decode bytes ∧
      replay.skippedRecords.total = invalidRecords decode bytes
  strict : ∀ replay, decodeRecords decode false bytes = .ok replay →
    decodeRecords decode true bytes = .ok ⟨replay.requests, 0⟩

theorem strict_skips {bytes : List UInt8} {replay : RequestFileReplay}
    (h : decodeRecords decode false bytes = .ok replay) :
    decodeRecords decode true bytes = .ok ⟨replay.requests, 0⟩ := by
  rw [decodeRecords_eq] at h ⊢
  obtain ⟨hskip, hzero⟩ := settle_strict h
  rw [hskip, ← hzero]

/-- Records are skipped as they should be exactly if no line is too long or not UTF-8, or no record
is valid. -/
theorem skips_iff (bytes : List UInt8) :
    Skips decode bytes ↔
      (∀ raw ∈ rawLines bytes, IsReadable raw) ∨ validRequests decode bytes = [] := by
  by_cases hreadable : ∀ raw ∈ rawLines bytes, IsReadable raw
  · refine iff_of_true ?_ (Or.inl hreadable)
    obtain ⟨skipped, htotal, hsettle⟩ :=
      settle_readable ((readable_verdicts decode bytes).mpr hreadable) 0 [] 0
    have hdecode : decodeRecords decode true bytes =
        finishRequests (validRequests decode bytes) skipped :=
      (decodeRecords_eq true bytes).trans hsettle
    refine ⟨?_, fun replay hreplay => ?_, fun replay => strict_skips decode⟩
    · rw [hdecode, finishRequests]
      by_cases hnone : validRequests decode bytes = []
      · rw [if_pos hnone]
        exact iff_of_true ⟨_, rfl⟩ hnone
      · rw [if_neg hnone]
        refine iff_of_false ?_ hnone
        rintro ⟨e, he⟩
        cases he
    · rw [hdecode] at hreplay
      obtain ⟨-, rfl⟩ := finishRequests_eq_ok hreplay
      exact ⟨rfl, htotal.trans (Nat.zero_add _)⟩
  · have hfails : ∃ e, decodeRecords decode true bytes = .error e := by
      rw [decodeRecords_eq]
      apply settle_unreadable
      by_contra hnone
      refine hreadable ((readable_verdicts decode bytes).mp fun v hv => ?_)
      exact Bool.eq_false_iff.mpr fun h => hnone ⟨v, hv, h⟩
    constructor
    · exact fun h => Or.inr (h.fails_iff.mp hfails)
    · intro h
      have hnone := h.resolve_left hreadable
      refine ⟨iff_of_true hfails hnone, fun replay hreplay => ?_, fun replay => strict_skips decode⟩
      obtain ⟨e, he⟩ := hfails
      rw [he] at hreplay
      cases hreplay

end Skipping

/-- A record with a path, a library that reads it, and a file with a line before it that is not
UTF-8. -/
def rootRecord : List Char := "\x7b\"uri\":\"/\"\x7d".toList

def rootLibrary : JsonLibrary where
  read line :=
    if line = rootRecord then some (.object [(some "uri".toList, .string (some ['/']))]) else none
  inRange _ := true

def spoiledFile : List UInt8 := 255 :: 10 :: encodeUtf8 rootRecord

/-- The line that is not UTF-8 ends the reading of a file with a valid record. -/
theorem spoiled_file_rejected :
    ¬ ∀ json bytes, Skips (decodeRequest json) bytes := by
  intro h
  have hfails : ∃ e, decodeRecords (decodeRequest rootLibrary) true spoiledFile = .error e :=
    ⟨.record ⟨1, .notUtf8⟩, rfl⟩
  have hnone := (h rootLibrary spoiledFile).fails_iff.mp hfails
  have hvalid : validRequests (decodeRequest rootLibrary) spoiledFile =
      [.new .get ['/'] [] [] false none] := by
    decide +kernel
  rw [hvalid] at hnone
  cases hnone

end Rload.RequestFile
