import Rload.LogTimes

/-!
# Local times

What a time in the local format of a log is, without reference to the code: decimal numbers
without signs, a day that exists and a time within its ranges. Such a time is read exactly. What
else is accepted are signs, days beyond the end of a month and years that do not fit.
-/

namespace Rload.AccessLog
open TextScanning CivilCalendar

/-- The field is written in decimal digits. -/
def Decimal (text : List Char) (x : ℤ) : Prop := ∃ k : ℕ, numeral 10 text = some k ∧ x = k

structure TimeNumbers.InRange (n : TimeNumbers) : Prop where
  date : n.date.IsValid
  year : 0 ≤ n.year
  hour : 0 ≤ n.hour ∧ n.hour ≤ 23
  minute : 0 ≤ n.minute ∧ n.minute ≤ 59
  second : 0 ≤ n.second ∧ n.second ≤ 60
  fraction : 0 ≤ n.fraction ∧ n.fraction < 1000000
  sign : n.sign = 1 ∨ n.sign = -1
  offsetHour : 0 ≤ n.offsetHour ∧ n.offsetHour ≤ 23
  offsetMinute : 0 ≤ n.offsetMinute ∧ n.offsetMinute ≤ 59

/-- The fields denote the time with these numbers. The fraction has up to six digits. -/
structure TimeFields.IsTimeLocal (f : TimeFields) (n : TimeNumbers) : Prop where
  day : Decimal f.day n.day
  month : monthNumber f.month = some n.month
  year : Decimal f.year n.year
  hour : Decimal f.hour n.hour
  minute : Decimal f.minute n.minute
  second : Decimal f.second n.second
  fraction_length : (f.fraction.getD []).length ≤ 6
  fraction : ∃ x, Decimal ('0' :: f.fraction.getD []) x ∧
    n.fraction = x * 10 ^ (6 - (f.fraction.getD []).length)
  sign : f.sign = '+' ∧ n.sign = 1 ∨ f.sign = '-' ∧ n.sign = -1
  offset_length : f.offsetHour.length = 2 ∧ f.offsetMinute.length = 2
  offsetHour : Decimal f.offsetHour n.offsetHour
  offsetMinute : Decimal f.offsetMinute n.offsetMinute
  in_range : n.InRange

/-- The text denotes a local time, which is `v` microseconds after the beginning of 1970. -/
def Denotes (value : List Char) (v : ℤ) : Prop :=
  ∃ f n, value = TimeFields.text f ∧ f.IsTimeLocal n ∧ v = n.exactMicros

theorem numeral_zero_cons {text : List Char} (hne : text ≠ []) :
    numeral 10 ('0' :: text) = numeral 10 text := by
  have hzero : digitValue 10 '0' = some 0 := rfl
  rw [numeral, numeral, if_neg (List.cons_ne_nil _ _), if_neg hne, List.mapM_cons, hzero]
  cases text.mapM (digitValue 10) with
  | none => rfl
  | some ds => simp

theorem Decimal.nonneg {text : List Char} {x : ℤ} (h : Decimal text x) : 0 ≤ x := by
  obtain ⟨k, -, rfl⟩ := h
  exact Int.natCast_nonneg k

theorem Decimal.parseI64 {text : List Char} {x : ℤ} (h : Decimal text x) (hx : x < 2 ^ 63) :
    parseI64 text = some x := by
  obtain ⟨k, hk, rfl⟩ := h
  exact parseI64_of_numeral hk (by omega)

/-- A sign is no digit. -/
theorem Decimal.unsigned {text : List Char} {x : ℤ} (h : Decimal text x) :
    text.head? ≠ some '+' ∧ text.head? ≠ some '-' := by
  obtain ⟨k, hk, -⟩ := h
  constructor
  · intro hhead
    exact numeral_not_mem hk (by decide) (List.mem_of_mem_head? hhead)
  · intro hhead
    exact numeral_not_mem hk (by decide) (List.mem_of_mem_head? hhead)

theorem decimal_of_unsigned {text : List Char} {x : ℤ} (h : AccessLog.parseI64 text = some x)
    (hsign : text.head? ≠ some '+' ∧ text.head? ≠ some '-') : Decimal text x := by
  obtain ⟨k, hk, rfl⟩ | ⟨c, digits, k, hc, rfl, -⟩ := (parseI64_eq_some h).2
  · exact ⟨k, hk, rfl⟩
  · obtain rfl | rfl := hc
    · exact absurd rfl hsign.1
    · exact absurd rfl hsign.2

theorem Decimal.eq_of_parseI64 {text : List Char} {x y : ℤ} (h : Decimal text x)
    (hy : AccessLog.parseI64 text = some y) : x = y := by
  obtain ⟨k, hk, rfl⟩ := h
  obtain ⟨k', hk', rfl⟩ := decimal_of_unsigned hy (Decimal.unsigned ⟨k, hk, rfl⟩)
  rw [hk] at hk'
  rw [Option.some.inj hk']

/-- All characters of a decimal number are digits, and conversely. -/
theorem Decimal.all_digits {text : List Char} {x : ℤ} (h : Decimal text x) :
    text.all isAsciiDigitChar = true := by
  obtain ⟨k, hk, -⟩ := h
  rw [List.all_eq_true]
  intro c hc
  obtain ⟨d, hd⟩ := digit_of_mem_numeral hk hc
  unfold digitValue at hd
  rw [isAsciiDigitChar, Bool.and_eq_true, decide_eq_true_eq, decide_eq_true_eq]
  simp only at hd
  split_ifs at hd <;> omega

theorem unsigned_of_all_digits {text : List Char} (h : text.all isAsciiDigitChar = true) :
    text.head? ≠ some '+' ∧ text.head? ≠ some '-' := by
  have hnot : ∀ c, isAsciiDigitChar c = false → text.head? ≠ some c := by
    intro c hc hhead
    have hdigit := List.all_eq_true.mp h c (List.mem_of_mem_head? hhead)
    rw [hc] at hdigit
    cases hdigit
  exact ⟨hnot '+' (by decide), hnot '-' (by decide)⟩

/-- The digits behind the point are read as a number of microseconds. -/
theorem fractionMicros_eq_some_iff {digits : List Char} {x : ℤ} (hlength : digits.length ≤ 6) :
    fractionMicros digits = some x ∧ digits.all isAsciiDigitChar = true ↔
      ∃ y, Decimal ('0' :: digits) y ∧ x = y * 10 ^ (6 - digits.length) := by
  rw [fractionMicros]
  split
  · rename_i hnil
    subst hnil
    constructor
    · rintro ⟨hx, -⟩
      cases hx
      exact ⟨0, ⟨0, rfl, rfl⟩, rfl⟩
    · rintro ⟨y, ⟨k, hk, rfl⟩, rfl⟩
      cases hk
      exact ⟨rfl, rfl⟩
  · rename_i hne
    have hzero : ∀ y, Decimal ('0' :: digits) y ↔ Decimal digits y := by
      intro y
      rw [Decimal, Decimal, numeral_zero_cons hne]
    simp only [Option.map_eq_some_iff, hzero]
    constructor
    · rintro ⟨⟨y, hy, rfl⟩, hall⟩
      exact ⟨y, decimal_of_unsigned hy (unsigned_of_all_digits hall), rfl⟩
    · rintro ⟨y, hy, rfl⟩
      have hlt : y < 2 ^ 63 := by
        obtain ⟨k, hk, rfl⟩ := hy
        have hpow : 10 ^ digits.length ≤ 10 ^ 6 := Nat.pow_le_pow_right (by norm_num) hlength
        have hk := numeral_lt hk
        omega
      exact ⟨⟨y, hy.parseI64 hlt, rfl⟩, hy.all_digits⟩

theorem fraction_lt {digits : List Char} {y : ℤ} (h : Decimal ('0' :: digits) y)
    (hlength : digits.length ≤ 6) :
    0 ≤ y * 10 ^ (6 - digits.length) ∧ y * 10 ^ (6 - digits.length) < 1000000 := by
  obtain ⟨k, hk, rfl⟩ := h
  have hlt : k < 10 ^ digits.length := by
    by_cases hne : digits = []
    · subst hne
      cases hk
      decide
    · rw [numeral_zero_cons hne] at hk
      exact numeral_lt hk
  have hpow : 10 ^ digits.length * 10 ^ (6 - digits.length) = 1000000 := by
    rw [← pow_add, Nat.add_sub_cancel' hlength]
    norm_num
  refine ⟨by positivity, ?_⟩
  calc (k : ℤ) * 10 ^ (6 - digits.length)
      < 10 ^ digits.length * 10 ^ (6 - digits.length) := by
        gcongr
        exact_mod_cast hlt
    _ = 1000000 := by exact_mod_cast hpow

/-- What is read as a sign. -/
theorem offsetSign_eq_some_iff {c : Char} {x : ℤ} :
    offsetSign [c] = some x ↔ c = '+' ∧ x = 1 ∨ c = '-' ∧ x = -1 := by
  constructor
  · intro h
    unfold offsetSign at h
    split at h
    · rename_i heq
      cases heq
      cases h
      exact .inl ⟨rfl, rfl⟩
    · rename_i heq
      cases heq
      cases h
      exact .inr ⟨rfl, rfl⟩
    · cases h
  · rintro (⟨rfl, rfl⟩ | ⟨rfl, rfl⟩)
    · rfl
    · rfl

namespace TimeFields

/-- No number has a sign. -/
def Unsigned (f : TimeFields) : Prop :=
  ∀ text ∈ [f.day, f.year, f.hour, f.minute, f.second, f.offsetHour, f.offsetMinute],
    text.head? ≠ some '+' ∧ text.head? ≠ some '-'

variable {f : TimeFields} {n m : TimeNumbers}

theorem IsTimeLocal.unsigned (h : f.IsTimeLocal n) : f.Unsigned := by
  intro text htext
  simp only [List.mem_cons, List.not_mem_nil, or_false] at htext
  obtain rfl | rfl | rfl | rfl | rfl | rfl | rfl := htext
  · exact h.day.unsigned
  · exact h.year.unsigned
  · exact h.hour.unsigned
  · exact h.minute.unsigned
  · exact h.second.unsigned
  · exact h.offsetHour.unsigned
  · exact h.offsetMinute.unsigned

theorem IsTimeLocal.reads (h : f.IsTimeLocal n) (hyear : n.year < 2 ^ 63) : f.Reads n := by
  have hrange := h.in_range
  have hday := day_le hrange.date
  have hpos := hrange.date.day_pos
  have hdate : n.date.day = n.day := rfl
  rw [hdate] at hday hpos
  obtain ⟨hfraction, hdigits⟩ := (fractionMicros_eq_some_iff h.fraction_length).mpr h.fraction
  constructor
  · exact h.day.parseI64 (by omega)
  · exact h.month
  · exact h.year.parseI64 hyear
  · exact h.hour.parseI64 (by linarith [hrange.hour.2])
  · exact h.minute.parseI64 (by linarith [hrange.minute.2])
  · exact h.second.parseI64 (by linarith [hrange.second.2])
  · exact hfraction
  · exact offsetSign_eq_some_iff.mpr h.sign
  · exact h.offsetHour.parseI64 (by linarith [hrange.offsetHour.2])
  · exact h.offsetMinute.parseI64 (by linarith [hrange.offsetMinute.2])
  · exact ⟨by omega, hday, hrange.hour.2, hrange.minute.2⟩
  · exact hrange.second.2
  · rw [length_encodeUtf8]
    · exact h.fraction_length
    · intro c hc
      have hdigit := List.all_eq_true.mp hdigits c hc
      rw [isAsciiDigitChar, Bool.and_eq_true, decide_eq_true_eq, decide_eq_true_eq] at hdigit
      omega
  · exact hdigits
  · exact h.offset_length
  · exact ⟨hrange.offsetHour.2, hrange.offsetMinute.2⟩

theorem IsTimeLocal.numeric (h : f.IsTimeLocal n) : f.Numeric where
  texts := by
    have hdecimal : ∀ {text : List Char} {x : ℤ}, Decimal text x → ∀ c ∈ text, IsNumeric c := by
      intro text x hx
      obtain ⟨k, hk, -⟩ := hx
      exact isNumeric_of_numeral hk
    have hfraction : ∀ c ∈ f.fraction.getD [], IsNumeric c := by
      obtain ⟨x, hx, -⟩ := h.fraction
      exact fun c hc => hdecimal hx c (List.mem_cons_of_mem '0' hc)
    simp only [List.forall_mem_cons, List.not_mem_nil, false_imp_iff, forall_const, and_true]
    exact ⟨hdecimal h.day, hdecimal h.year, hdecimal h.hour, hdecimal h.minute,
      hdecimal h.second, hfraction, hdecimal h.offsetHour, hdecimal h.offsetMinute⟩
  month := ⟨n.month, h.month⟩
  sign := h.sign.imp And.left And.left
  offset_length := h.offset_length

/-- A local time is read as the numbers that it denotes. -/
theorem IsTimeLocal.eq_of_reads (h : f.IsTimeLocal n) (hreads : f.Reads m) : n = m := by
  have hfraction :=
    ((fractionMicros_eq_some_iff h.fraction_length).mpr h.fraction).1.symm.trans hreads.fraction
  have hsign := (offsetSign_eq_some_iff.mpr h.sign).symm.trans hreads.sign
  have hmonth := h.month.symm.trans hreads.month
  cases n
  cases m
  simp only [TimeNumbers.mk.injEq]
  exact ⟨h.day.eq_of_parseI64 hreads.day, Option.some.inj hmonth,
    h.year.eq_of_parseI64 hreads.year, h.hour.eq_of_parseI64 hreads.hour,
    h.minute.eq_of_parseI64 hreads.minute, h.second.eq_of_parseI64 hreads.second,
    Option.some.inj hfraction, Option.some.inj hsign,
    h.offsetHour.eq_of_parseI64 hreads.offsetHour,
    h.offsetMinute.eq_of_parseI64 hreads.offsetMinute⟩

/-- Without signs, what is read is a local time if only the day exists. -/
theorem Reads.isTimeLocal (h : f.Reads n) (hunsigned : f.Unsigned)
    (hday : n.day ≤ daysInMonth n.year n.month) : f.IsTimeLocal n := by
  simp only [Unsigned, List.forall_mem_cons, List.not_mem_nil, false_imp_iff, forall_const,
    and_true] at hunsigned
  obtain ⟨hday', hyear, hhour, hminute, hsecond, hoffsetHour, hoffsetMinute⟩ := hunsigned
  have hday' := decimal_of_unsigned h.day hday'
  have hyear := decimal_of_unsigned h.year hyear
  have hhour := decimal_of_unsigned h.hour hhour
  have hminute := decimal_of_unsigned h.minute hminute
  have hsecond := decimal_of_unsigned h.second hsecond
  have hoffsetHour := decimal_of_unsigned h.offsetHour hoffsetHour
  have hoffsetMinute := decimal_of_unsigned h.offsetMinute hoffsetMinute
  have hlength : (f.fraction.getD []).length ≤ 6 := by
    have hbytes := h.fraction_length
    rwa [length_encodeUtf8] at hbytes
    intro c hc
    exact (h.numeric.texts _ (by simp) c hc).ascii
  have hfraction := (fractionMicros_eq_some_iff hlength).mp ⟨h.fraction, h.fraction_digits⟩
  have hsign := offsetSign_eq_some_iff.mp h.sign
  have hmonth := (monthNumber_eq_some h.month).1
  obtain ⟨hzero, -, hhour', hminute'⟩ := h.time_range
  refine ⟨hday', h.month, hyear, hhour, hminute, hsecond, hlength, hfraction, hsign,
    h.offset_length, hoffsetHour, hoffsetMinute, ?_⟩
  constructor
  · exact ⟨hmonth.1, hmonth.2, by have := hday'.nonneg; change 1 ≤ n.day; omega, hday⟩
  · exact hyear.nonneg
  · exact ⟨hhour.nonneg, hhour'⟩
  · exact ⟨hminute.nonneg, hminute'⟩
  · exact ⟨hsecond.nonneg, h.second_le⟩
  · obtain ⟨y, hy, hfraction⟩ := hfraction
    rw [hfraction]
    exact fraction_lt hy hlength
  · exact hsign.imp And.right And.right
  · exact ⟨hoffsetHour.nonneg, h.offset_range.1⟩
  · exact ⟨hoffsetMinute.nonneg, h.offset_range.2⟩

end TimeFields

namespace TimeNumbers

variable {checks : Bool} {n : TimeNumbers}

/-- Nothing overflows in the years that have four digits. -/
theorem micros_eq (checks : Bool) (h : n.InRange) (hyear : n.year ≤ 9999) :
    n.micros checks = .ok n.exactMicros := by
  have hlow : 0 ≤ n.date.year := h.year
  have hhigh : n.date.year ≤ 9999 := hyear
  have hbounds := dayNumber_bounds h.date hlow hhigh
  have hdays : daysFromCivil checks n.year n.month n.day = .ok (dayNumber n.date) :=
    daysFromCivil_eq checks h.date (by linarith) (by linarith)
  obtain ⟨hhour, hhour'⟩ := h.hour
  obtain ⟨hminute, hminute'⟩ := h.minute
  obtain ⟨hsecond, hsecond'⟩ := h.second
  obtain ⟨hfraction, hfraction'⟩ := h.fraction
  obtain ⟨hoffset, hoffset'⟩ := h.offsetHour
  obtain ⟨hoffsetMinute, hoffsetMinute'⟩ := h.offsetMinute
  have hsign := h.sign
  rw [exactMicros, micros, hdays]
  generalize dayNumber n.date = days at hbounds ⊢
  simp only [add, sub, mul, ok_bind]
  have hproduct : -100000 ≤ n.sign * (n.offsetHour * 3600 + n.offsetMinute * 60) ∧
      n.sign * (n.offsetHour * 3600 + n.offsetMinute * 60) ≤ 100000 := by
    obtain hsign | hsign := hsign <;> rw [hsign] <;> omega
  generalize hsigned : n.sign * (n.offsetHour * 3600 + n.offsetMinute * 60) = signed at hproduct ⊢
  iterate 6 rw [bind_i64 _ (by omega) (by omega)]
  iterate 3 rw [bind_i64 _ (by omega) (by omega)]
  rw [hsigned]
  iterate 3 rw [bind_i64 _ (by omega) (by omega)]
  exact i64_of_fits _ ⟨by omega, by omega⟩

/-- What is returned is the number of microseconds up to a multiple of `2 ^ 64`. -/
theorem computes_micros (checks : Bool) (h : n.InRange) (hyear : n.year < 2 ^ 63) :
    Computes (n.micros checks) n.exactMicros := by
  have hdays : Computes (daysFromCivil checks n.year n.month n.day) (dayNumber n.date) := by
    obtain ⟨hmarch, hmarch'⟩ := marchYear_bounds n.date.year n.date.month
    have hpos : 0 ≤ n.date.year := h.year
    have hyear : n.date.year < 2 ^ 63 := hyear
    exact computes_daysFromCivil checks h.date.month_pos h.date.month_le
      (by linarith [h.date.day_pos]) (day_le h.date) (by omega) (by omega)
  rw [micros, exactMicros]
  refine .bind hdays fun days hdays => ?_
  refine .bind (.i64 (hdays.mul_right 86400)) fun daySeconds hdaySeconds => ?_
  refine .bind (.i64 rfl) fun hourSeconds hhour => ?_
  refine .bind (.i64 (hdaySeconds.add hhour)) fun _ hsum => ?_
  refine .bind (.i64 rfl) fun minuteSeconds hminute => ?_
  refine .bind (.i64 (hsum.add hminute)) fun _ hsum => ?_
  refine .bind (.i64 (hsum.add_right n.second)) fun localSeconds hlocal => ?_
  refine .bind (.i64 rfl) fun _ hoffsetHour => ?_
  refine .bind (.i64 rfl) fun _ hoffsetMinute => ?_
  refine .bind (.i64 (hoffsetHour.add hoffsetMinute)) fun _ hoffset => ?_
  refine .bind (.i64 (hoffset.mul_left n.sign)) fun _ hoffset => ?_
  refine .bind (.i64 (hlocal.sub hoffset)) fun _ hseconds => ?_
  refine .bind (.i64 (hseconds.mul_right 1000000)) fun _ hmicros => ?_
  exact .i64 (hmicros.add_right n.fraction)

/-- The exact value of every operation is in the range of `i64`. -/
def NoOverflow (n : TimeNumbers) : Prop :=
  let march := n.year - if n.month ≤ 2 then 1 else 0
  let eraStart := march / 400 * 400
  let yearOfEra := march - eraStart
  let shiftedMonth := n.month + if n.month > 2 then -3 else 9
  let dayOfYear := (153 * shiftedMonth + 2).tdiv 5 + n.day - 1
  let yearDays := yearOfEra * 365 + yearOfEra.tdiv 4
  let dayOfEra := yearDays - yearOfEra.tdiv 100 + dayOfYear
  let days := march / 400 * 146097 + dayOfEra - 719468
  let hours := days * 86400 + n.hour * 3600
  let localSeconds := hours + n.minute * 60 + n.second
  let offset := n.offsetHour * 3600 + n.offsetMinute * 60
  let seconds := localSeconds - n.sign * offset
  ∀ x ∈ [march, eraStart, yearOfEra, shiftedMonth, 153 * shiftedMonth, 153 * shiftedMonth + 2,
    dayOfYear + 1, dayOfYear, yearOfEra * 365, yearDays, yearDays - yearOfEra.tdiv 100, dayOfEra,
    march / 400 * 146097, march / 400 * 146097 + dayOfEra, days, days * 86400, n.hour * 3600,
    hours, n.minute * 60, hours + n.minute * 60, localSeconds, n.offsetHour * 3600,
    n.offsetMinute * 60, offset, n.sign * offset, seconds, seconds * 1000000,
    seconds * 1000000 + n.fraction], Fits x

theorem exists_micros_true : (∃ v, n.micros true = .ok v) ↔ n.NoOverflow := by
  simp only [micros, daysFromCivil, add, sub, mul, bind_eq_ok, i64_true_iff, and_assoc,
    exists_and_left, exists_eq_left, exists_eq, and_true, NoOverflow, List.forall_mem_cons,
    List.not_mem_nil, false_imp_iff, forall_const, Int.sub_add_cancel]

/-- Without overflow checks something is returned always. -/
theorem exists_micros_false (n : TimeNumbers) : ∃ v, n.micros false = .ok v := by
  simp only [micros, daysFromCivil, add, sub, mul, i64_false, ok_bind]
  exact ⟨_, rfl⟩

end TimeNumbers

/-- The last digits of a number. -/
def padded : ℕ → ℕ → List Char
  | 0, _ => []
  | width + 1, k => padded width (k / 10) ++ [Nat.digitChar (k % 10)]

def monthName (month : ℤ) : List Char :=
  (["Jan", "Feb", "Mar", "Apr", "May", "Jun", "Jul", "Aug", "Sep", "Oct", "Nov", "Dec"].getD
    (month.toNat - 1) "").toList

/-- The text that a server writes, with six digits behind the point. -/
def TimeNumbers.timeLocal (n : TimeNumbers) : TimeFields where
  day := padded 2 n.day.toNat
  month := monthName n.month
  year := padded 4 n.year.toNat
  hour := padded 2 n.hour.toNat
  minute := padded 2 n.minute.toNat
  second := padded 2 n.second.toNat
  fraction := some (padded 6 n.fraction.toNat)
  sign := if n.sign = 1 then '+' else '-'
  offsetHour := padded 2 n.offsetHour.toNat
  offsetMinute := padded 2 n.offsetMinute.toNat

theorem length_padded (width k : ℕ) : (padded width k).length = width := by
  induction width generalizing k with
  | zero => rfl
  | succ width ih => rw [padded, List.length_append, ih, List.length_singleton]

theorem padded_ne_nil {width : ℕ} (h : 0 < width) (k : ℕ) : padded width k ≠ [] := by
  rw [← List.length_pos_iff, length_padded]
  exact h

theorem digits_padded (width : ℕ) {k : ℕ} (h : k < 10 ^ width) :
    ∃ ds, (padded width k).mapM (digitValue 10) = some ds ∧
      ds.foldl (fun n d => n * 10 + d) 0 = k := by
  induction width generalizing k with
  | zero => exact ⟨[], rfl, by rw [pow_zero, Nat.lt_one_iff] at h; exact h.symm⟩
  | succ width ih =>
    obtain ⟨ds, hds, hvalue⟩ := ih (show k / 10 < 10 ^ width by rw [pow_succ] at h; omega)
    have hdigit : ∀ d < 10, digitValue 10 (Nat.digitChar d) = some d := by decide
    refine ⟨ds ++ [k % 10], ?_, ?_⟩
    · rw [padded, List.mapM_append, hds]
      simp [hdigit (k % 10) (Nat.mod_lt k (by norm_num))]
    · rw [List.foldl_append, hvalue]
      change k / 10 * 10 + k % 10 = k
      omega

theorem decimal_padded {width : ℕ} {x : ℤ} (hpos : 0 < width) (hlow : 0 ≤ x)
    (hhigh : x < 10 ^ width) : Decimal (padded width x.toNat) x := by
  have hlt : x.toNat < 10 ^ width := by
    zify
    rwa [Int.toNat_of_nonneg hlow]
  obtain ⟨ds, hds, hvalue⟩ := digits_padded width hlt
  refine ⟨x.toNat, ?_, (Int.toNat_of_nonneg hlow).symm⟩
  rw [numeral, if_neg (padded_ne_nil hpos _), hds, Option.map_some, hvalue]

theorem monthNumber_monthName {month : ℤ} (hpos : 1 ≤ month) (hle : month ≤ 12) :
    monthNumber (monthName month) = some month := by
  interval_cases month <;> rfl

/-- What is written for the numbers denotes them. -/
theorem TimeNumbers.isTimeLocal_timeLocal {n : TimeNumbers} (h : n.InRange)
    (hyear : n.year ≤ 9999) : n.timeLocal.IsTimeLocal n where
  day := by
    have hpos : 1 ≤ n.day := h.date.day_pos
    have hle : n.day ≤ 31 := day_le h.date
    exact decimal_padded (by norm_num) (by linarith) (by linarith)
  month := monthNumber_monthName h.date.month_pos h.date.month_le
  year := decimal_padded (by norm_num) h.year (by linarith)
  hour := decimal_padded (by norm_num) h.hour.1 (by linarith [h.hour.2])
  minute := decimal_padded (by norm_num) h.minute.1 (by linarith [h.minute.2])
  second := decimal_padded (by norm_num) h.second.1 (by linarith [h.second.2])
  fraction_length := (length_padded 6 n.fraction.toNat).le
  fraction := by
    have hdecimal : Decimal (padded 6 n.fraction.toNat) n.fraction :=
      decimal_padded (by norm_num) h.fraction.1 (by linarith [h.fraction.2])
    obtain ⟨k, hk, hfraction⟩ := hdecimal
    refine ⟨n.fraction, ⟨k, ?_, hfraction⟩, ?_⟩
    · exact (numeral_zero_cons (padded_ne_nil (by norm_num) _)).trans hk
    · change n.fraction = n.fraction * 10 ^ (6 - (padded 6 n.fraction.toNat).length)
      rw [length_padded, Nat.sub_self, pow_zero, mul_one]
  sign := by
    obtain hsign | hsign := h.sign
    · exact .inl ⟨if_pos hsign, hsign⟩
    · exact .inr ⟨if_neg (by omega), hsign⟩
  offset_length := ⟨length_padded 2 _, length_padded 2 _⟩
  offsetHour := decimal_padded (by norm_num) h.offsetHour.1 (by linarith [h.offsetHour.2])
  offsetMinute := decimal_padded (by norm_num) h.offsetMinute.1 (by linarith [h.offsetMinute.2])
  in_range := h

theorem parseTimestamp_isTimeLocal (checks : Bool) {f : TimeFields} {n : TimeNumbers}
    (h : f.IsTimeLocal n) (hyear : n.year ≤ 9999) :
    parseTimestamp checks f.text = .ok (some n.exactMicros) :=
  parseTimestamp_text (h.reads (by linarith)) (n.micros_eq checks h.in_range hyear)

/-- The days are counted from 1970 on. All local times of the years that have four digits are
read exactly, and so in their order. -/
theorem parseTimestamp_exact (checks : Bool) :
    (daysFromCivil checks 1970 1 1 = .ok 0 ∧ dayNumber ⟨1970, 1, 1⟩ = 0 ∧
      ∀ date : Date, date.IsValid → dayNumber date.next = dayNumber date + 1) ∧
    (∀ date : Date, date.IsValid → -(25 * 10 ^ 15) ≤ date.year → date.year ≤ 25 * 10 ^ 15 →
      daysFromCivil checks date.year date.month date.day = .ok (dayNumber date)) ∧
    (∀ date : Date, date.IsValid → ∀ days, checks = true ∨ Fits (dayNumber date) →
      daysFromCivil checks date.year date.month date.day = .ok days → days = dayNumber date) ∧
    (∀ n : TimeNumbers, n.InRange → n.year ≤ 9999 → n.timeLocal.IsTimeLocal n) ∧
    (∀ (f : TimeFields) n, f.IsTimeLocal n → n.year ≤ 9999 →
      parseTimestamp checks f.text = .ok (some n.exactMicros)) ∧
    ∀ (f g : TimeFields) n m v w, f.IsTimeLocal n → g.IsTimeLocal m → n.year ≤ 9999 →
      m.year ≤ 9999 → parseTimestamp checks f.text = .ok (some v) →
      parseTimestamp checks g.text = .ok (some w) → (v < w ↔ n.exactMicros < m.exactMicros) := by
  refine ⟨⟨?_, dayNumber_epoch, fun date => dayNumber_next⟩, ?_, ?_, ?_, ?_, ?_⟩
  · have hepoch : (⟨1970, 1, 1⟩ : Date).IsValid := by
      constructor <;> decide
    have hdays := daysFromCivil_eq checks hepoch (by norm_num) (by norm_num)
    rwa [dayNumber_epoch] at hdays
  · exact fun date hvalid => daysFromCivil_eq checks hvalid
  · intro date hvalid days hexact hdays
    obtain rfl | hfits := hexact
    · exact daysFromCivil_checked hvalid hdays
    · exact daysFromCivil_of_fits hvalid hfits hdays
  · exact fun n => TimeNumbers.isTimeLocal_timeLocal
  · exact fun f n => parseTimestamp_isTimeLocal checks
  · intro f g n m v w hn hm hyear hyear' hv hw
    rw [parseTimestamp_isTimeLocal checks hn hyear] at hv
    rw [parseTimestamp_isTimeLocal checks hm hyear'] at hw
    cases hv
    cases hw
    rfl

/-- Half a second into the leap second of a leap day, west of Greenwich. -/
def leapTime : TimeNumbers := ⟨29, 2, 2024, 23, 59, 60, 500000, -1, 9, 30⟩

theorem leapTime_inRange : leapTime.InRange := by
  constructor
  case date => constructor <;> decide
  all_goals decide

theorem parseTimestamp_exact_leapTime :
    daysFromCivil false 2024 2 29 = .ok (dayNumber ⟨2024, 2, 29⟩) ∧
      leapTime.timeLocal.IsTimeLocal leapTime ∧
      parseTimestamp false leapTime.timeLocal.text = .ok (some leapTime.exactMicros) := by
  have hvalid : (⟨2024, 2, 29⟩ : Date).IsValid := leapTime_inRange.date
  obtain ⟨-, hdays, -, hlocal, hparse, -⟩ := parseTimestamp_exact false
  have htext := hlocal leapTime leapTime_inRange (by decide)
  exact ⟨hdays _ hvalid (by decide) (by decide), htext, hparse _ _ htext (by decide)⟩

/-- Whether something is returned. -/
theorem exists_micros_iff {checks : Bool} {n : TimeNumbers} :
    (∃ v, n.micros checks = .ok v) ↔ (checks = true → n.NoOverflow) := by
  cases checks with
  | false => simp [TimeNumbers.exists_micros_false n]
  | true => simp [TimeNumbers.exists_micros_true]

/-- The text of a local time has no other fields. -/
theorem isTimeLocal_of_denotes {f : TimeFields} {n : TimeNumbers} {v : ℤ} (h : Denotes f.text v)
    (hreads : f.Reads n) : f.IsTimeLocal n ∧ v = n.exactMicros := by
  obtain ⟨g, m, htext, hlocal, hv⟩ := h
  obtain rfl := hreads.numeric.separated.ext_text hlocal.numeric.separated htext
  obtain rfl := hlocal.eq_of_reads hreads
  exact ⟨hlocal, hv⟩

/-- What is accepted and returned is right as long as no number has a sign, the day exists and
the microseconds fit. -/
theorem forall_denotes_iff (checks : Bool) (value : List Char) :
    (∀ v, parseTimestamp checks value = .ok (some v) → Denotes value v) ↔
      ∀ f n, value = TimeFields.text f → f.Reads n → (checks = true → n.NoOverflow) →
        f.Unsigned ∧ n.day ≤ daysInMonth n.year n.month ∧ Fits n.exactMicros := by
  constructor
  · rintro h f n rfl hreads hreturns
    obtain ⟨v, hv⟩ := exists_micros_iff.mpr hreturns
    obtain ⟨hlocal, rfl⟩ := isTimeLocal_of_denotes (h v (parseTimestamp_text hreads hv)) hreads
    have hcomputes := n.computes_micros checks hlocal.in_range (parseI64_eq_some hreads.year).1
    exact ⟨hlocal.unsigned, hlocal.in_range.date.day_le, (hcomputes _ hv).2⟩
  · intro h v hv
    obtain ⟨f, n, rfl, hreads, hmicros⟩ := parseTimestamp_eq_some_iff.mp hv
    obtain ⟨hunsigned, hday, hfits⟩ :=
      h f n rfl hreads (exists_micros_iff.mp ⟨v, hmicros⟩)
    have hlocal := hreads.isTimeLocal hunsigned hday
    have hcomputes := n.computes_micros checks hlocal.in_range (parseI64_eq_some hreads.year).1
    obtain ⟨hmod, hfits'⟩ := hcomputes v hmicros
    exact ⟨f, n, rfl, hlocal, eq_of_modEq hmod hfits' hfits⟩

/-- The thirtieth of February is read as the second of March. -/
theorem february_accepted :
    parseTimestamp false "30/Feb/2023:00:00:00 +0000".toList = .ok (some 1677715200000000) ∧
      ¬ Denotes "30/Feb/2023:00:00:00 +0000".toList 1677715200000000 := by
  refine ⟨by decide +kernel, ?_⟩
  rintro ⟨f, n, htext, hlocal, -⟩
  have hnumeric : TimeFields.Numeric ⟨"30".toList, "Feb".toList, "2023".toList, "00".toList,
      "00".toList, "00".toList, none, '+', "00".toList, "00".toList⟩ := by
    have hzero : ∀ c ∈ "00".toList, IsNumeric c := isNumeric_of_numeral rfl
    have hnone : ∀ c ∈ (none : Option (List Char)).getD [], IsNumeric c := by simp
    constructor
    · simp only [List.forall_mem_cons, List.not_mem_nil, false_imp_iff, forall_const, and_true]
      exact ⟨isNumeric_of_numeral rfl, isNumeric_of_numeral rfl, hzero, hzero, hzero, hnone,
        hzero, hzero⟩
    · exact ⟨2, rfl⟩
    · exact .inl rfl
    · exact ⟨rfl, rfl⟩
  obtain rfl := hnumeric.separated.ext_text hlocal.numeric.separated htext
  have hday := hlocal.day.eq_of_parseI64 rfl
  have hyear := hlocal.year.eq_of_parseI64 rfl
  have hmonth : some 2 = some n.month := hlocal.month
  have hexists := hlocal.in_range.date.day_le
  change n.day ≤ daysInMonth n.year n.month at hexists
  rw [hday, hyear, ← Option.some.inj hmonth] at hexists
  exact absurd hexists (by decide)

end Rload.AccessLog
