import Rload.AccessLog
import Rload.SkippedRecords

/-!
# Files of access logs

An access log is read line by line up to the first line that fails. Lines with another method
than GET and HEAD are counted, and blank ones are passed over.
-/

namespace Rload.AccessLog
open TextScanning
open RequestFile (rawLines)

/-- The map of the skipped methods has how often each one occurs. -/
structure AccessLogReplay where
  requests : List ReplayRequest
  skippedMethods : Multiset (List Char)
  deriving DecidableEq

/-- A line of `BufRead::lines`, without a line feed and a carriage return before it. -/
def withoutBreak (raw : List UInt8) : List UInt8 :=
  if raw.getLast? = some 10 then
    let line := raw.dropLast
    if line.getLast? = some 13 then line.dropLast else line
  else raw

def notUtf8 : Halt := .error (.io ⟨.invalidData, "stream did not contain valid UTF-8"⟩)

def noRequests : Halt :=
  .error (.invalidAccessLog "access log contains no replayable requests")

/-- The loop over the lines with their indices. -/
def readLines (overflowChecks : Bool) :
    ℕ → List (List UInt8) → AccessLogReplay → Except Halt AccessLogReplay
  | _, [], replay => .ok replay
  | index, raw :: lines, replay => do
    let line ← orHalt notUtf8 (decodeUtf8 (withoutBreak raw))
    if trim line = [] then readLines overflowChecks (index + 1) lines replay
    else
      match ← parseLine overflowChecks line (index + 1) with
      | .request request =>
        readLines overflowChecks (index + 1) lines
          { replay with requests := replay.requests ++ [request] }
      | .skippedMethod method =>
        readLines overflowChecks (index + 1) lines
          { replay with skippedMethods := method ::ₘ replay.skippedMethods }

/-- `file` has the bytes of the file, if it can be opened. -/
def read (overflowChecks : Bool) (file : Except IoError (List UInt8)) :
    Except Halt AccessLogReplay :=
  match file with
  | .error e => .error (.error (.io e))
  | .ok bytes => do
    let replay ← readLines overflowChecks 0 (rawLines bytes) ⟨[], 0⟩
    if replay.requests = [] then .error noRequests else .ok replay

/-- What a line is in the log, where a blank one is nothing. -/
def entryOf (overflowChecks : Bool) (raw : List UInt8) (lineNumber : ℕ) :
    Except Halt (Option ParsedLine) := do
  let line ← orHalt notUtf8 (decodeUtf8 (withoutBreak raw))
  if trim line = [] then .ok none else some <$> parseLine overflowChecks line lineNumber

def ParsedLine.request? : ParsedLine → Option ReplayRequest
  | .request r => some r
  | .skippedMethod _ => none

def ParsedLine.skipped? : ParsedLine → Option (List Char)
  | .request _ => none
  | .skippedMethod method => some method

/-- The entries of the lines that follow the first `index` ones. -/
inductive Entries (overflowChecks : Bool) : ℕ → List (List UInt8) → List ParsedLine → Prop
  | nil {index : ℕ} : Entries overflowChecks index [] []
  | blank {index : ℕ} {raw : List UInt8} {lines : List (List UInt8)} {entries : List ParsedLine}
      (hraw : entryOf overflowChecks raw (index + 1) = .ok none)
      (h : Entries overflowChecks (index + 1) lines entries) :
      Entries overflowChecks index (raw :: lines) entries
  | parsed {index : ℕ} {raw : List UInt8} {lines : List (List UInt8)} {entry : ParsedLine}
      {entries : List ParsedLine} (hraw : entryOf overflowChecks raw (index + 1) = .ok (some entry))
      (h : Entries overflowChecks (index + 1) lines entries) :
      Entries overflowChecks index (raw :: lines) (entry :: entries)

/-- The requests and the skipped methods of the entries. -/
def collect (entries : List ParsedLine) : AccessLogReplay where
  requests := entries.filterMap ParsedLine.request?
  skippedMethods := ↑(entries.filterMap ParsedLine.skipped?)

def AccessLogReplay.add (replay other : AccessLogReplay) : AccessLogReplay where
  requests := replay.requests ++ other.requests
  skippedMethods := replay.skippedMethods + other.skippedMethods

theorem AccessLogReplay.add_collect_nil (replay : AccessLogReplay) :
    replay.add (collect []) = replay := by
  simp [AccessLogReplay.add, collect]

theorem add_request (replay : AccessLogReplay) (request : ReplayRequest)
    (entries : List ParsedLine) :
    { replay with requests := replay.requests ++ [request] }.add (collect entries) =
      replay.add (collect (.request request :: entries)) := by
  simp [AccessLogReplay.add, collect, List.filterMap_cons, ParsedLine.request?,
    ParsedLine.skipped?]

theorem add_skipped (replay : AccessLogReplay) (method : List Char) (entries : List ParsedLine) :
    { replay with skippedMethods := method ::ₘ replay.skippedMethods }.add (collect entries) =
      replay.add (collect (.skippedMethod method :: entries)) := by
  simp [AccessLogReplay.add, collect, List.filterMap_cons, ParsedLine.request?,
    ParsedLine.skipped?, ← Multiset.cons_coe]

variable {checks : Bool} {index : ℕ} {raw : List UInt8} {lines : List (List UInt8)}
  {entries : List ParsedLine}

/-- A pass of the loop. -/
theorem readLines_cons (raw : List UInt8) (lines : List (List UInt8)) (replay : AccessLogReplay) :
    readLines checks index (raw :: lines) replay =
      match entryOf checks raw (index + 1) with
      | .error halt => .error halt
      | .ok none => readLines checks (index + 1) lines replay
      | .ok (some (.request request)) =>
        readLines checks (index + 1) lines
          { replay with requests := replay.requests ++ [request] }
      | .ok (some (.skippedMethod method)) =>
        readLines checks (index + 1) lines
          { replay with skippedMethods := method ::ₘ replay.skippedMethods } := by
  rw [readLines, entryOf]
  cases decodeUtf8 (withoutBreak raw) with
  | none => rfl
  | some line =>
    simp only [orHalt, ok_bind]
    by_cases hblank : trim line = []
    · rw [if_pos hblank, if_pos hblank]
    · rw [if_neg hblank, if_neg hblank]
      cases parseLine checks line (index + 1) with
      | error halt => rfl
      | ok entry => cases entry <;> rfl

/-- The loop collects the entries of lines that all have one. -/
theorem Entries.readLines_eq (h : Entries checks index lines entries) (replay : AccessLogReplay) :
    readLines checks index lines replay = .ok (replay.add (collect entries)) := by
  induction h generalizing replay with
  | nil => rw [readLines, AccessLogReplay.add_collect_nil]
  | blank hraw _ ih =>
    rw [readLines_cons, hraw]
    exact ih replay
  | @parsed index raw lines entry entries hraw _ ih =>
    rw [readLines_cons, hraw]
    cases entry with
    | request request =>
      rw [← add_request]
      exact ih _
    | skippedMethod method =>
      rw [← add_skipped]
      exact ih _

/-- The loop ends at the first line that has no entry. -/
theorem Entries.readLines_error (h : Entries checks index lines entries) {halt : Halt}
    (hraw : entryOf checks raw (index + lines.length + 1) = .error halt)
    (rest : List (List UInt8)) (replay : AccessLogReplay) :
    readLines checks index (lines ++ raw :: rest) replay = .error halt := by
  induction h generalizing replay with
  | nil =>
    rw [List.nil_append, readLines_cons]
    rw [List.length_nil] at hraw
    rw [hraw]
  | @blank index first lines entries hfirst _ ih =>
    rw [List.length_cons, ← Nat.add_assoc, Nat.add_right_comm index] at hraw
    rw [List.cons_append, readLines_cons, hfirst]
    exact ih hraw replay
  | @parsed index first lines entry entries hfirst _ ih =>
    rw [List.length_cons, ← Nat.add_assoc, Nat.add_right_comm index] at hraw
    rw [List.cons_append, readLines_cons, hfirst]
    cases entry with
    | request request => exact ih hraw _
    | skippedMethod method => exact ih hraw _

/-- Either all lines have entries, or there is a first one that has none. -/
theorem entries_or_error (checks : Bool) (index : ℕ) (lines : List (List UInt8)) :
    (∃ entries, Entries checks index lines entries) ∨
      ∃ before raw rest entries halt, lines = before ++ raw :: rest ∧
        Entries checks index before entries ∧
        entryOf checks raw (index + before.length + 1) = .error halt := by
  induction lines generalizing index with
  | nil => exact Or.inl ⟨[], .nil⟩
  | cons first lines ih =>
    cases hfirst : entryOf checks first (index + 1) with
    | error halt => exact Or.inr ⟨[], first, lines, [], halt, rfl, .nil, hfirst⟩
    | ok found =>
      obtain ⟨entries, hentries⟩ | ⟨before, raw, rest, entries, halt, rfl, hentries, hraw⟩ :=
        ih (index + 1)
      · cases found with
        | none => exact Or.inl ⟨entries, .blank hfirst hentries⟩
        | some entry => exact Or.inl ⟨entry :: entries, .parsed hfirst hentries⟩
      · have hnumber : index + (first :: before).length + 1 = index + 1 + before.length + 1 := by
          rw [List.length_cons]
          omega
        rw [← hnumber] at hraw
        cases found with
        | none =>
          exact Or.inr ⟨first :: before, raw, rest, entries, halt, rfl, .blank hfirst hentries,
            hraw⟩
        | some entry =>
          exact Or.inr ⟨first :: before, raw, rest, entry :: entries, halt, rfl,
            .parsed hfirst hentries, hraw⟩

theorem collect_append (entries others : List ParsedLine) :
    collect (entries ++ others) = (collect entries).add (collect others) := by
  simp [collect, AccessLogReplay.add]

variable {bytes : List UInt8}

theorem Entries.read_eq (h : Entries checks 0 (rawLines bytes) entries) :
    read checks (.ok bytes) =
      if (collect entries).requests = [] then .error noRequests else .ok (collect entries) := by
  have hadd : AccessLogReplay.add ⟨[], 0⟩ (collect entries) = collect entries := by
    simp [AccessLogReplay.add]
  rw [read, h.readLines_eq, hadd]
  rfl

theorem Entries.read_error {before rest : List (List UInt8)} {halt : Halt}
    (h : Entries checks 0 before entries) (hlines : rawLines bytes = before ++ raw :: rest)
    (hraw : entryOf checks raw (before.length + 1) = .error halt) :
    read checks (.ok bytes) = .error halt := by
  rw [← Nat.zero_add before.length] at hraw
  rw [read, hlines, h.readLines_error hraw]
  rfl

/-- Reading succeeds where all lines have entries of which one is a request. -/
theorem read_eq_ok_iff {replay : AccessLogReplay} :
    read checks (.ok bytes) = .ok replay ↔
      ∃ entries, Entries checks 0 (rawLines bytes) entries ∧ replay = collect entries ∧
        replay.requests ≠ [] := by
  constructor
  · intro hok
    obtain ⟨entries, hentries⟩ | ⟨before, raw, rest, entries, halt, hlines, hentries, hraw⟩ :=
      entries_or_error checks 0 (rawLines bytes)
    · rw [hentries.read_eq] at hok
      split at hok
      · cases hok
      · rename_i hsome
        cases hok
        exact ⟨entries, hentries, rfl, hsome⟩
    · rw [Nat.zero_add] at hraw
      rw [hentries.read_error hlines hraw] at hok
      cases hok
  · rintro ⟨entries, hentries, rfl, hsome⟩
    rw [hentries.read_eq, if_neg hsome]

/-- Else it ends with the error of the first line that has no entry, or because there is no
request. -/
theorem read_eq_error_iff {halt : Halt} :
    read checks (.ok bytes) = .error halt ↔
      (∃ before raw rest entries, rawLines bytes = before ++ raw :: rest ∧
        Entries checks 0 before entries ∧
        entryOf checks raw (before.length + 1) = .error halt) ∨
      ∃ entries, Entries checks 0 (rawLines bytes) entries ∧ (collect entries).requests = [] ∧
        halt = noRequests := by
  constructor
  · intro herror
    obtain ⟨entries, hentries⟩ | ⟨before, raw, rest, entries, halt', hlines, hentries, hraw⟩ :=
      entries_or_error checks 0 (rawLines bytes)
    · rw [hentries.read_eq] at herror
      split at herror
      · rename_i hnone
        cases herror
        exact Or.inr ⟨entries, hentries, hnone, rfl⟩
      · cases herror
    · rw [Nat.zero_add] at hraw
      rw [hentries.read_error hlines hraw] at herror
      cases herror
      exact Or.inl ⟨before, raw, rest, entries, hlines, hentries, hraw⟩
  · rintro (⟨before, raw, rest, entries, hlines, hentries, hraw⟩ | ⟨entries, hentries, hnone, rfl⟩)
    · exact hentries.read_error hlines hraw
    · rw [hentries.read_eq, if_pos hnone]

theorem rawLines_append {bytes : List UInt8} (h : bytes.getLast? = some 10) (more : List UInt8) :
    rawLines (bytes ++ more) = rawLines bytes ++ rawLines more := by
  induction bytes with
  | nil => cases h
  | cons b bytes ih =>
    rw [List.cons_append, rawLines, rawLines]
    by_cases hb : b = 10
    · rw [if_pos hb, if_pos hb, List.cons_append]
      cases bytes with
      | nil => rfl
      | cons c bytes =>
        rw [List.getLast?_cons_cons] at h
        rw [ih h]
    · rw [if_neg hb, if_neg hb]
      cases bytes with
      | nil => exact absurd (Option.some.inj h) hb
      | cons c bytes =>
        rw [List.getLast?_cons_cons] at h
        rw [ih h]
        have hlines := RequestFile.rawLines_eq (List.cons_ne_nil c bytes)
        rw [hlines]
        rfl

theorem ok_of_orHalt {α : Type} {halt halt' : Halt} {o : Option α} {a : α}
    (h : orHalt halt o = .ok a) : orHalt halt' o = .ok a := by
  rw [some_of_orHalt h]
  rfl

/-- Only the errors of a line have its number. -/
theorem parseLine_renumbered {line : List Char} {n : ℕ} {entry : ParsedLine}
    (h : parseLine checks line n = .ok entry) (m : ℕ) : parseLine checks line m = .ok entry := by
  have hfields : ∀ {timestampMicros method fields},
      parseFields n timestampMicros method fields = .ok entry →
        parseFields m timestampMicros method fields = .ok entry := by
    intro timestampMicros method fields h
    obtain ⟨path, hpath, h⟩ := ok_of_bind h
    obtain ⟨version, hversion, h⟩ := ok_of_bind h
    rw [parseFields, ok_of_orHalt hpath, ok_bind, ok_of_orHalt hversion, ok_bind]
    split at h
    · cases h
    · rename_i hfew
      rw [if_neg hfew]
      exact h
  obtain ⟨request, hrequest, h⟩ := ok_of_bind h
  obtain ⟨timestampMicros, htimestamp, h⟩ := ok_of_bind h
  rw [parseLine, ok_of_orHalt hrequest, ok_bind, htimestamp, ok_bind]
  split at h
  · cases h
  · split at h
    · rename_i hget
      rw [if_pos hget]
      exact hfields h
    · rename_i hget
      rw [if_neg hget]
      split at h
      · rename_i hhead
        rw [if_pos hhead]
        exact hfields h
      · rename_i hhead
        rw [if_neg hhead]
        exact h

theorem entryOf_renumbered {n : ℕ} {found : Option ParsedLine}
    (h : entryOf checks raw n = .ok found) (m : ℕ) : entryOf checks raw m = .ok found := by
  obtain ⟨line, hline, h⟩ := ok_of_bind h
  rw [entryOf, hline, ok_bind]
  split at h
  · rename_i hblank
    rw [if_pos hblank]
    exact h
  · rename_i hblank
    rw [if_neg hblank]
    obtain ⟨entry, hentry, heq⟩ := ok_of_bind (f := fun entry => .ok (some entry)) h
    rw [parseLine_renumbered hentry]
    exact heq

theorem Entries.append (h : Entries checks index lines entries) {index' : ℕ}
    {others : List (List UInt8)} {more : List ParsedLine} (h' : Entries checks index' others more)
    (start : ℕ) : Entries checks start (lines ++ others) (entries ++ more) := by
  have hrenumbered : ∀ start, Entries checks start others more := by
    clear h
    induction h' with
    | nil => exact fun _ => .nil
    | blank hraw _ ih => exact fun start => .blank (entryOf_renumbered hraw _) (ih _)
    | parsed hraw _ ih => exact fun start => .parsed (entryOf_renumbered hraw _) (ih _)
  induction h generalizing start with
  | nil => exact hrenumbered start
  | blank hraw _ ih => exact .blank (entryOf_renumbered hraw _) (ih _)
  | parsed hraw _ ih => exact .parsed (entryOf_renumbered hraw _) (ih _)

/-- A log that ends with a line feed and one that follows it are read as both are. -/
theorem read_append {more : List UInt8} (hbreak : bytes.getLast? = some 10)
    {replay other : AccessLogReplay} (h : read checks (.ok bytes) = .ok replay)
    (h' : read checks (.ok more) = .ok other) :
    read checks (.ok (bytes ++ more)) = .ok (replay.add other) := by
  obtain ⟨entries, hentries, rfl, hsome⟩ := read_eq_ok_iff.mp h
  obtain ⟨others, hothers, rfl, -⟩ := read_eq_ok_iff.mp h'
  refine read_eq_ok_iff.mpr ⟨entries ++ others, ?_, ?_, ?_⟩
  · rw [rawLines_append hbreak]
    exact hentries.append hothers 0
  · rw [collect_append]
  · exact fun hnil => hsome (List.append_eq_nil_iff.mp hnil).1

/-- A log is read line by line: it gives what its lines are, or the error of the first line that
is nothing, which has its number. Logs that follow each other are read as each of them is. -/
theorem read_line_by_line (checks : Bool) (bytes : List UInt8) :
    (∀ replay, read checks (.ok bytes) = .ok replay ↔
      ∃ entries, Entries checks 0 (rawLines bytes) entries ∧ replay = collect entries ∧
        replay.requests ≠ []) ∧
    (∀ halt, read checks (.ok bytes) = .error halt ↔
      (∃ before raw rest entries, rawLines bytes = before ++ raw :: rest ∧
        Entries checks 0 before entries ∧
        entryOf checks raw (before.length + 1) = .error halt) ∨
      ∃ entries, Entries checks 0 (rawLines bytes) entries ∧ (collect entries).requests = [] ∧
        halt = noRequests) ∧
    ∀ more replay other, bytes.getLast? = some 10 → read checks (.ok bytes) = .ok replay →
      read checks (.ok more) = .ok other →
        read checks (.ok (bytes ++ more)) = .ok (replay.add other) :=
  ⟨fun _ => read_eq_ok_iff, fun _ => read_eq_error_iff,
    fun _ _ _ hbreak h h' => read_append hbreak h h'⟩

/-- A log with one line. -/
def rootLog : List UInt8 :=
  encodeUtf8 "- [10/Oct/2000:13:55:36 -0700] \"GET / HTTP/1.1\" 200\n".toList

theorem read_line_by_line_sample :
    ∃ replay, read true (.ok rootLog) = .ok replay ∧ replay.requests.length = 1 ∧
      read true (.ok (rootLog ++ rootLog)) = .ok (replay.add replay) := by
  have hone : (read true (.ok rootLog)).toOption.map (·.requests.length) = some 1 := by
    decide +kernel
  obtain ⟨replay, hsome, hlength⟩ := Option.map_eq_some_iff.mp hone
  have hread := ok_of_toOption hsome
  have hbreak : rootLog.getLast? = some 10 := by decide +kernel
  obtain ⟨-, -, happend⟩ := read_line_by_line true rootLog
  exact ⟨replay, hread, hlength, happend rootLog replay replay hbreak hread hread⟩

end Rload.AccessLog
