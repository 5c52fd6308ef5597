import Rload.TimeLocal

/-!
# Lines that panic

The offset of a time is cut at its bytes, where a character may stand, and the numbers of a time
are bounded on one side only. A line panics for one of these two reasons or not at all.
-/

namespace Rload.AccessLog
open TextScanning CivilCalendar

/-- The bounds of the numbers that are read. -/
structure TimeNumbers.Bounded (n : TimeNumbers) : Prop where
  day : -(2 ^ 63) ≤ n.day ∧ n.day ≤ 31
  month : 1 ≤ n.month ∧ n.month ≤ 12
  hour : n.hour ≤ 23
  minute : n.minute ≤ 59
  second : -(2 ^ 63) ≤ n.second ∧ n.second ≤ 60
  fraction : 0 ≤ n.fraction ∧ n.fraction < 1000000
  sign : n.sign = 1 ∨ n.sign = -1
  offsetHour : -9 ≤ n.offsetHour ∧ n.offsetHour ≤ 23
  offsetMinute : -9 ≤ n.offsetMinute ∧ n.offsetMinute ≤ 59

/-- The year is within 25 million billions, the other numbers are not too low, and neither are the
seconds that they make. -/
structure TimeNumbers.Moderate (n : TimeNumbers) : Prop where
  year : -25252734927766400 ≤ marchYear n.year n.month ∧
    marchYear n.year n.month < 25252734927766800
  day : n.month = 3 → -(2 ^ 63) < n.day
  days : -106751991167300 ≤ dayNumber n.date ∧ dayNumber n.date ≤ 106751991167300
  hour : -2562047788015215 ≤ n.hour
  hours : Fits (dayNumber n.date * 86400 + n.hour * 3600)
  minute : -153722867280912930 ≤ n.minute
  minutes : Fits (dayNumber n.date * 86400 + n.hour * 3600 + n.minute * 60)
  micros : -(2 ^ 63) ≤ n.exactMicros - n.fraction ∧ n.exactMicros < 2 ^ 63

theorem neg_le_of_parseI64 {text : List Char} {x : ℤ} (h : parseI64 text = some x) :
    -(2 ^ 63) ≤ x ∧ (text.length = 2 → -9 ≤ x) := by
  rw [parseI64] at h
  cases text with
  | nil => cases h
  | cons c digits =>
    by_cases hminus : c = '-'
    · subst hminus
      obtain ⟨x', hx', rfl⟩ := Option.map_eq_some_iff.mp h
      obtain ⟨n, hn, rfl⟩ := natCast_eq_some.mp hx'
      obtain ⟨hnumeral, hlimit⟩ := Option.filter_eq_some_iff.mp hn
      have hle : n ≤ 2 ^ 63 := of_decide_eq_true hlimit
      refine ⟨by omega, fun hlength => ?_⟩
      have hdigits : digits.length = 1 := Nat.succ_inj.mp hlength
      have hlt := numeral_lt hnumeral
      rw [hdigits] at hlt
      omega
    · rw [parseSigned_of_ne hminus] at h
      obtain ⟨n, -, rfl⟩ := Option.map_eq_some_iff.mp h
      omega

/-- The product that makes microseconds of the digits behind the point fits. -/
theorem fractionMicros_bounds {digits : List Char} {x : ℤ}
    (hdigits : digits.all isAsciiDigitChar = true) (hlength : (encodeUtf8 digits).length ≤ 6)
    (h : fractionMicros digits = some x) : 0 ≤ x ∧ x < 1000000 := by
  rw [length_encodeUtf8] at hlength
  · obtain ⟨y, hy, rfl⟩ := (fractionMicros_eq_some_iff hlength).mp ⟨h, hdigits⟩
    exact fraction_lt hy hlength
  · intro c hc
    have hdigit := List.all_eq_true.mp hdigits c hc
    rw [isAsciiDigitChar, Bool.and_eq_true, decide_eq_true_eq, decide_eq_true_eq] at hdigit
    omega

theorem TimeFields.Reads.bounded {f : TimeFields} {n : TimeNumbers} (h : f.Reads n) :
    n.Bounded where
  day := ⟨(neg_le_of_parseI64 h.day).1, h.time_range.2.1⟩
  month := (monthNumber_eq_some h.month).1
  hour := h.time_range.2.2.1
  minute := h.time_range.2.2.2
  second := ⟨(neg_le_of_parseI64 h.second).1, h.second_le⟩
  fraction := fractionMicros_bounds h.fraction_digits h.fraction_length h.fraction
  sign := (offsetSign_eq_some_iff.mp h.sign).imp And.right And.right
  offsetHour := ⟨(neg_le_of_parseI64 h.offsetHour).2 h.offset_length.1, h.offset_range.1⟩
  offsetMinute := ⟨(neg_le_of_parseI64 h.offsetMinute).2 h.offset_length.2, h.offset_range.2⟩

namespace TimeNumbers

variable {n : TimeNumbers}

theorem sign_mul (hsign : n.sign = 1 ∨ n.sign = -1) (offset : ℤ) :
    n.sign * offset = offset ∨ n.sign * offset = -offset := by
  obtain hsign | hsign := hsign
  · rw [hsign, one_mul]
    exact .inl rfl
  · rw [hsign, neg_one_mul]
    exact .inr rfl

/-- Of the operations only the products and the sums that they enter may overflow. -/
theorem noOverflow_iff (h : n.Bounded) : n.NoOverflow ↔ n.Moderate := by
  obtain ⟨hday, hday'⟩ := h.day
  obtain ⟨hmonth, hmonth'⟩ := h.month
  have hhour := h.hour
  have hminute := h.minute
  obtain ⟨hsecond, hsecond'⟩ := h.second
  obtain ⟨hfraction, hfraction'⟩ := h.fraction
  obtain ⟨hoffsetHour, hoffsetHour'⟩ := h.offsetHour
  obtain ⟨hoffsetMinute, hoffsetMinute'⟩ := h.offsetMinute
  have hoffset := sign_mul h.sign (n.offsetHour * 3600 + n.offsetMinute * 60)
  have hmicros : n.exactMicros = (dayNumber n.date * 86400 + n.hour * 3600 + n.minute * 60 +
      n.second - n.sign * (n.offsetHour * 3600 + n.offsetMinute * 60)) * 1000000 + n.fraction :=
    rfl
  have hdays : dayNumber n.date = marchYear n.year n.month / 400 * 146097 +
      (marchYear n.year n.month % 400 * 365 + marchYear n.year n.month % 400 / 4 -
        marchYear n.year n.month % 400 / 100 +
          ((153 * (if n.month ≤ 2 then n.month + 9 else n.month - 3) + 2) / 5 + n.day - 1)) -
            719468 := dayNumber_eq n.date
  have hshift : (n.month + if n.month > 2 then -3 else 9) =
      if n.month ≤ 2 then n.month + 9 else n.month - 3 := by
    split_ifs <;> omega
  have hshifted : 0 ≤ (if n.month ≤ 2 then n.month + 9 else n.month - 3) ∧
      (if n.month ≤ 2 then n.month + 9 else n.month - 3) ≤ 11 ∧
      ((if n.month ≤ 2 then n.month + 9 else n.month - 3) = 0 ↔ n.month = 3) := by
    split_ifs <;> omega
  simp only [NoOverflow]
  rw [sub_eq_marchYear, hshift]
  generalize (if n.month ≤ 2 then n.month + 9 else n.month - 3) = shifted at *
  obtain ⟨hshifted, hshifted', hmarch⟩ := hshifted
  have hera : marchYear n.year n.month - marchYear n.year n.month / 400 * 400 =
      marchYear n.year n.month % 400 := by omega
  have hfive : (153 * shifted + 2).tdiv 5 = (153 * shifted + 2) / 5 :=
    Int.tdiv_eq_ediv_of_nonneg (by omega)
  have hfour : (marchYear n.year n.month % 400).tdiv 4 = marchYear n.year n.month % 400 / 4 :=
    Int.tdiv_eq_ediv_of_nonneg (by omega)
  have hhundred : (marchYear n.year n.month % 400).tdiv 100 =
      marchYear n.year n.month % 400 / 100 := Int.tdiv_eq_ediv_of_nonneg (by omega)
  rw [hera, hfive, hfour, hhundred, ← hdays]
  simp only [List.forall_mem_cons, List.not_mem_nil, false_imp_iff, forall_const, and_true, Fits]
  constructor
  · intro hfits
    obtain ⟨-, -, -, -, -, -, -, hdayOfYear, -, -, -, -, heras, -, -, hdaySeconds, hhours, hsum,
      hminutes, hsum', -, -, -, -, -, -, hseconds, htotal⟩ := hfits
    constructor
    · omega
    · omega
    · omega
    · omega
    · exact hsum
    · omega
    · exact hsum'
    · omega
  · intro hmoderate
    obtain ⟨hyear, hfirst, hdaySeconds, hhours, hsum, hminutes, hsum', htotal⟩ := hmoderate
    simp only [Fits] at hsum hsum'
    refine ⟨?_, ?_, ?_, ?_, ?_, ?_, ?_, ?_, ?_, ?_, ?_, ?_, ?_, ?_, ?_, ?_, ?_, ?_, ?_, ?_, ?_, ?_,
      ?_, ?_, ?_, ?_, ?_, ?_⟩
    all_goals omega

end TimeNumbers

namespace TimeFields

/-- The fields with another offset. -/
def utc (f : TimeFields) : TimeFields :=
  { f with sign := '+', offsetHour := ['0', '0'], offsetMinute := ['0', '0'] }

/-- The offset has the length that is asked for, but its third byte ends inside a character. -/
structure CutsCharacter (f : TimeFields) : Prop where
  sign : f.sign = '+' ∨ f.sign = '-'
  no_space : ' ' ∉ f.offset
  length : (encodeUtf8 (f.offsetHour ++ f.offsetMinute)).length = 4
  cut : ∀ first last, f.offsetHour ++ f.offsetMinute = first ++ last →
    (encodeUtf8 first).length ≠ 2

variable {f : TimeFields} {n : TimeNumbers}

theorem Reads.utc (h : f.Reads n) :
    f.utc.Reads { n with sign := 1, offsetHour := 0, offsetMinute := 0 } where
  day := h.day
  month := h.month
  year := h.year
  hour := h.hour
  minute := h.minute
  second := h.second
  fraction := h.fraction
  sign := rfl
  offsetHour := rfl
  offsetMinute := rfl
  time_range := h.time_range
  second_le := h.second_le
  fraction_length := h.fraction_length
  fraction_digits := h.fraction_digits
  offset_length := ⟨rfl, rfl⟩
  offset_range := ⟨by norm_num, by norm_num⟩

theorem CutsCharacter.length_offset (h : f.CutsCharacter) : (encodeUtf8 f.offset).length = 5 := by
  obtain ⟨b, hb⟩ := encodeUtf8_sign h.sign (f.offsetHour ++ f.offsetMinute)
  rw [offset, List.cons_append, hb, List.length_cons, h.length]

theorem CutsCharacter.slice_offset (h : f.CutsCharacter) :
    slice f.offset 1 3 = .error (.panic "byte index is not a char boundary") := by
  have hlength := h.length
  have hnone := (decodeUtf8_take_eq_none_iff (by omega)).mpr h.cut
  rw [offset, List.cons_append, slice_one_three h.sign, hnone]
  rfl

end TimeFields

/-- The second slice of an offset does not cut a character unless the first one does. -/
theorem slice_three_five_ok {offset offsetHour : List Char} {sign : ℤ} {halt : Halt}
    (hsign : offsetSign offset = some sign) (hlength : (encodeUtf8 offset).length = 5)
    (h : slice offset 1 3 = .ok offsetHour) : slice offset 3 5 ≠ .error halt := by
  intro hcut
  obtain ⟨c, rest, rfl, hc, -⟩ := exists_sign hsign
  rw [slice_one_three hc] at h
  rw [slice_three_five hc hlength] at hcut
  obtain ⟨last, hlast⟩ := decodeUtf8_drop (some_of_orHalt h)
  rw [hlast] at hcut
  cases hcut

/-- A time panics where its offset is cut or after all tests were passed. -/
theorem parseTimestamp_error {checks : Bool} {value : List Char} {halt : Halt}
    (h : parseTimestamp checks value = .error halt) :
    ((∃ f n, value = TimeFields.text f ∧ f.utc.Reads n ∧ f.CutsCharacter) ∧
        halt.isRunError = false) ∨
      ∃ f n, value = TimeFields.text f ∧ f.Reads n ∧ n.micros checks = .error halt := by
  simp only [parseTimestamp, run_getM_bind_error, Prod.exists] at h
  obtain ⟨dateTime, offset, hvalue, date, time, hdateTime, h⟩ := h
  split at h
  · rename_i day month year hdate
    simp only [run_getM_bind_error] at h
    obtain ⟨dayNumber, hday, monthNumber, hmonth, yearNumber, hyear, h⟩ := h
    split at h
    · rename_i hour minute seconds more htime
      obtain ⟨second, fraction, hseconds, rfl⟩ := exists_fraction seconds
      simp only [run_getM_bind_error, run_unless_error, run_lift_bind_error, hseconds] at h
      obtain ⟨hourNumber, hhour, minuteNumber, hminute, hrange, secondNumber, hsecond, htests,
        fractionNumber, hfraction, signNumber, hsign, hlength, h⟩ := h
      simp only [not_or, not_not, gt_iff_lt, not_lt, Bool.not_eq_true, Bool.not_eq_false',
        ne_eq] at hrange htests hlength
      obtain ⟨rfl, hrange⟩ := hrange
      have htext : ∀ c offsetHour offsetMinute, offset = c :: (offsetHour ++ offsetMinute) →
          value = TimeFields.text ⟨day, month, year, hour, minute, second, fraction, c,
            offsetHour, offsetMinute⟩ := by
        rintro c offsetHour offsetMinute rfl
        rw [rsplitOnce_eq_some hvalue, (splitOnce_eq_some hdateTime).1,
          eq_of_splitOn_three hdate, eq_of_splitOn_three htime]
        rfl
      obtain hcut | ⟨offsetHour, hslice, offsetHourNumber, hoffsetHour, h⟩ := h
      · obtain ⟨c, rest, rfl, hc, -⟩ := exists_sign hsign
        obtain ⟨b, hb⟩ := encodeUtf8_sign hc rest
        rw [hb, List.length_cons] at hlength
        rw [slice_one_three hc] at hcut
        obtain ⟨hnone, rfl⟩ := error_of_orHalt hcut
        rw [decodeUtf8_take_eq_none_iff (by omega)] at hnone
        have hrest : rest ++ [] = rest := List.append_nil rest
        refine .inl ⟨⟨_, ⟨dayNumber, monthNumber, yearNumber, hourNumber, minuteNumber,
          secondNumber, fractionNumber, 1, 0, 0⟩, htext c rest [] (by rw [hrest]), ?_, ?_⟩, rfl⟩
        · exact ⟨hday, hmonth, hyear, hhour, hminute, hsecond, hfraction, rfl, rfl, rfl, hrange,
            htests.1, htests.2.1, htests.2.2, ⟨rfl, rfl⟩, by norm_num, by norm_num⟩
        · refine ⟨hc, ?_, ?_, ?_⟩
          · have hspace := rsplitOnce_not_mem hvalue
            rwa [← hrest] at hspace
          · rw [hrest]
            omega
          · rwa [hrest]
      · obtain hcut | ⟨offsetMinute, hslice', offsetMinuteNumber, hoffsetMinute, hoffset, h⟩ := h
        · exact absurd hcut (slice_three_five_ok hsign hlength hslice)
        · simp only [not_or, gt_iff_lt, not_lt] at hoffset
          obtain ⟨c, rfl, hsign, hlengths⟩ :=
            slices_eq hsign hlength hslice hoffsetHour hslice' hoffsetMinute
          refine .inr ⟨_, ⟨dayNumber, monthNumber, yearNumber, hourNumber, minuteNumber,
            secondNumber, fractionNumber, signNumber, offsetHourNumber, offsetMinuteNumber⟩,
            htext c offsetHour offsetMinute rfl, ?_, ?_⟩
          · exact ⟨hday, hmonth, hyear, hhour, hminute, hsecond, hfraction, hsign, hoffsetHour,
              hoffsetMinute, hrange, htests.1, htests.2.1, htests.2.2, hlengths, hoffset⟩
          · simp only [run_lift_error] at h
            simp only [TimeNumbers.micros, bind_eq_error]
            exact h
    · exact absurd h run_failure_error
  · exact absurd h run_failure_error

/-- What follows the tests of the date and the time. -/
theorem parseTimestamp_eq_error {checks : Bool} {f : TimeFields} {n : TimeNumbers} {sign : ℤ}
    {halt : Halt} (h : f.utc.Reads n) (hspace : ' ' ∉ f.offset)
    (hsign : offsetSign f.offset = some sign) (hlength : (encodeUtf8 f.offset).length = 5)
    (hrest : slice f.offset 1 3 = .error halt ∨
      ∃ offsetHour, slice f.offset 1 3 = .ok offsetHour ∧ ∃ x, parseI64 offsetHour = some x ∧
      ∃ offsetMinute, slice f.offset 3 5 = .ok offsetMinute ∧
      ∃ y, parseI64 offsetMinute = some y ∧ ¬ (x > 23 ∨ y > 59) ∧
        TimeNumbers.micros checks { n with sign := sign, offsetHour := x, offsetMinute := y } =
          .error halt) :
    parseTimestamp checks f.text = .error halt := by
  have hseparated := h.numeric.separated
  have hsplit : f.date.splitOn '/' = [f.day, f.month, f.year] :=
    splitOn_three hseparated.day hseparated.month hseparated.year
  have hsplit' : f.time.splitOn ':' = [f.hour, f.minute, f.seconds] :=
    splitOn_three hseparated.hour hseparated.minute hseparated.seconds
  have hseconds : (splitOnce '.' f.seconds).getD (f.seconds, []) =
      (f.second, f.fraction.getD []) := hseparated.seconds_parts
  obtain ⟨hzero, hday, hhour, hminute⟩ := h.time_range
  have hdigits : (f.fraction.getD []).all isAsciiDigitChar = true := h.fraction_digits
  simp only [parseTimestamp, run_getM_bind_error, Prod.exists]
  refine ⟨_, _, rsplitOnce_append hspace, _, _, splitOnce_append hseparated.date, ?_⟩
  simp only [hsplit, hsplit', run_getM_bind_error, run_unless_error, run_lift_bind_error,
    run_lift_error, hseconds]
  refine ⟨n.day, h.day, n.month, h.month, n.year, h.year, n.hour, h.hour, n.minute, h.minute, ?_,
    n.second, h.second, ?_, n.fraction, h.fraction, sign, hsign, not_not.mpr hlength, ?_⟩
  · simp [hzero, hday, hhour, hminute]
  · simp only [hdigits]
    simp
    exact ⟨h.second_le, h.fraction_length⟩
  · obtain hcut | ⟨offsetHour, hslice, x, hx, offsetMinute, hslice', y, hy, hrange, hmicros⟩ :=
      hrest
    · exact .inl hcut
    · refine .inr ⟨offsetHour, hslice, x, hx, .inr ⟨offsetMinute, hslice', y, hy, hrange, ?_⟩⟩
      simp only [TimeNumbers.micros, bind_eq_error] at hmicros
      exact hmicros

theorem parseTimestamp_error_iff {checks : Bool} {value : List Char} :
    (∃ halt, parseTimestamp checks value = .error halt) ↔
      (∃ f n, value = TimeFields.text f ∧ f.utc.Reads n ∧ f.CutsCharacter) ∨
        ∃ f n, value = TimeFields.text f ∧ f.Reads n ∧ ∃ halt, n.micros checks = .error halt := by
  constructor
  · rintro ⟨halt, h⟩
    obtain ⟨hcut, -⟩ | ⟨f, n, hvalue, hreads, hmicros⟩ := parseTimestamp_error h
    · exact .inl hcut
    · exact .inr ⟨f, n, hvalue, hreads, halt, hmicros⟩
  · rintro (⟨f, n, rfl, hreads, hcut⟩ | ⟨f, n, rfl, hreads, halt, hmicros⟩)
    · obtain ⟨sign, hsign⟩ : ∃ sign, offsetSign f.offset = some sign := by
        rw [offsetSign_offset hcut.sign]
        obtain hsign | hsign := hcut.sign
        · exact ⟨1, by rw [hsign]; rfl⟩
        · exact ⟨-1, by rw [hsign]; rfl⟩
      exact ⟨_, parseTimestamp_eq_error hreads hcut.no_space hsign hcut.length_offset
        (.inl hcut.slice_offset)⟩
    · obtain ⟨hlength, hslice, hslice'⟩ := slice_offset hreads.numeric
      have hsign := (offsetSign_offset hreads.numeric.sign).trans hreads.sign
      have hrange := hreads.offset_range
      exact ⟨halt, parseTimestamp_eq_error hreads.utc hreads.numeric.separated.offset hsign
        hlength (.inr ⟨_, hslice, _, hreads.offsetHour, _, hslice', _, hreads.offsetMinute,
          by omega, hmicros⟩)⟩

theorem avoids_i64 (checks : Bool) (operation : String) (x : ℤ) :
    Avoids Halt.isRunError (i64 checks operation x) := by
  rw [i64]
  split
  · exact avoids_ok x
  · split
    · exact avoids_error rfl
    · exact avoids_ok _

theorem TimeNumbers.avoids_micros (checks : Bool) (n : TimeNumbers) :
    Avoids Halt.isRunError (n.micros checks) := by
  simp only [micros, daysFromCivil, add, sub, mul]
  repeat' first
    | exact avoids_i64 _ _ _
    | refine .bind ?_ fun _ => ?_

/-- A time ends in no error of its own. -/
theorem avoids_parseTimestamp (checks : Bool) (value : List Char) :
    Avoids Halt.isRunError (parseTimestamp checks value) := by
  intro halt h
  obtain ⟨-, hpanic⟩ | ⟨f, n, -, -, hmicros⟩ := parseTimestamp_error h
  · exact hpanic
  · exact n.avoids_micros checks halt hmicros

/-- The program returns, be it an error. -/
def Returns {α : Type} (x : Except Halt α) : Prop :=
  ∀ halt, x = .error halt → halt.isRunError = true

theorem returns_iff_avoids {α : Type} {x : Except Halt α} :
    Returns x ↔ Avoids (fun halt => !halt.isRunError) x := by
  refine forall₂_congr fun halt _ => ?_
  rw [Bool.not_eq_false']

theorem avoids_parseFields (lineNumber : ℕ) (timestampMicros : Option ℤ) (method : Method)
    (fields : List (List Char)) :
    Avoids (fun halt => !halt.isRunError)
      (parseFields lineNumber timestampMicros method fields) := by
  refine (avoids_orHalt rfl _).bind fun path => ?_
  refine (avoids_orHalt rfl _).bind fun version => ?_
  split
  · exact avoids_error rfl
  · exact avoids_ok _

/-- The time of a line is all that may panic. -/
theorem returns_iff_timestamp {checks : Bool} {line : List Char} {lineNumber : ℕ} :
    Returns (parseLine checks line lineNumber) ↔
      enclosed '"' '"' line = none ∨ ∀ value, enclosed '[' ']' line = some value →
        ¬ ∃ halt, parseTimestamp checks value = .error halt := by
  rw [returns_iff_avoids]
  cases hrequest : enclosed '"' '"' line with
  | none =>
    refine iff_of_true ?_ (.inl rfl)
    rw [parseLine, hrequest]
    exact avoids_error rfl
  | some request =>
    constructor
    · intro h
      refine .inr fun value hvalue => ?_
      rintro ⟨halt, hhalt⟩
      have hparse : parseLine checks line lineNumber = .error halt := by
        have htime : lineTimestamp checks line = .error halt := by
          rw [lineTimestamp, hvalue]
          exact hhalt
        rw [parseLine, hrequest, htime]
        rfl
      have hpanic := avoids_parseTimestamp checks value halt hhalt
      simpa [hpanic] using h halt hparse
    · rintro (h | h)
      · cases h
      · rw [parseLine, hrequest]
        have htime : Avoids (fun halt => !halt.isRunError) (lineTimestamp checks line) := by
          intro halt hhalt
          exfalso
          rw [lineTimestamp] at hhalt
          split at hhalt
          · rename_i value hvalue
            exact h value hvalue ⟨halt, hhalt⟩
          · cases hhalt
        refine htime.bind fun timestampMicros => ?_
        split
        · exact avoids_error rfl
        · split
          · exact avoids_parseFields _ _ _ _
          · split
            · exact avoids_parseFields _ _ _ _
            · exact avoids_ok _

/-- The lines that do not panic. Without overflow checks the first condition is enough. -/
theorem parseLine_returns_iff (checks : Bool) (line : List Char) (lineNumber : ℕ) :
    (Returns (parseLine checks line lineNumber) ↔
      enclosed '"' '"' line = none ∨ ∀ value, enclosed '[' ']' line = some value →
        (∀ f n, value = TimeFields.text f → f.utc.Reads n → ¬ f.CutsCharacter) ∧
        (checks = true → ∀ f n, value = TimeFields.text f → f.Reads n → n.Moderate)) ∧
    ∀ digits x, digits.all isAsciiDigitChar = true → (encodeUtf8 digits).length ≤ 6 →
      fractionMicros digits = some x → Fits x := by
  constructor
  · rw [returns_iff_timestamp]
    refine or_congr_right (forall₂_congr fun value _ => ?_)
    rw [parseTimestamp_error_iff, not_or]
    refine and_congr ?_ ?_
    · simp only [not_exists, not_and]
    · have hmicros : ∀ n : TimeNumbers, n.Bounded →
          ((∃ halt, n.micros checks = .error halt) ↔ ¬ (checks = true → n.Moderate)) := by
        intro n hn
        rw [← TimeNumbers.noOverflow_iff hn, ← exists_micros_iff]
        cases n.micros checks with
        | error halt => simp
        | ok v => simp
      constructor
      · intro h hchecks f n hvalue hreads
        by_contra hnot
        exact h ⟨f, n, hvalue, hreads,
          (hmicros n hreads.bounded).mpr fun hmoderate => hnot (hmoderate hchecks)⟩
      · rintro h ⟨f, n, hvalue, hreads, hhalt⟩
        exact (hmicros n hreads.bounded).mp hhalt fun hchecks => h hchecks f n hvalue hreads
  · intro digits x hdigits hlength hx
    obtain ⟨hlow, hhigh⟩ := fractionMicros_bounds hdigits hlength hx
    constructor
    · omega
    · omega

/-- An offset of five bytes with a character of two, and the last year of 64 bits. -/
theorem parseLine_panics :
    ¬ Returns (parseLine false "[10/Oct/2000:13:55:36 +0é0] \"GET / HTTP/1.1\"".toList 1) ∧
      ¬ Returns (parseLine true
        "[10/Oct/9223372036854775807:13:55:36 +0000] \"GET / HTTP/1.1\"".toList 1) := by
  have hcut : parseLine false "[10/Oct/2000:13:55:36 +0é0] \"GET / HTTP/1.1\"".toList 1 =
      .error (.panic "byte index is not a char boundary") := by
    decide +kernel
  have hoverflow : parseLine true
      "[10/Oct/9223372036854775807:13:55:36 +0000] \"GET / HTTP/1.1\"".toList 1 =
        .error (.panic "attempt to multiply with overflow") := by
    decide +kernel
  constructor
  · intro h
    exact absurd (h _ hcut) (by decide)
  · intro h
    exact absurd (h _ hoverflow) (by decide)

end Rload.AccessLog
