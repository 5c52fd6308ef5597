import Rload.DaysFromCivil

/-!
# The times of a log

The text of a time is split at its separators into the fields of a date, a time of the day and an
offset, which are read as signed numbers. What is accepted need not be a time.
-/

namespace Rload.AccessLog
open TextScanning CivilCalendar

/-- The parts between the separators. -/
structure TimeFields where
  day : List Char
  month : List Char
  year : List Char
  hour : List Char
  minute : List Char
  second : List Char
  fraction : Option (List Char)
  sign : Char
  offsetHour : List Char
  offsetMinute : List Char
  deriving DecidableEq, Repr

namespace TimeFields

def date (f : TimeFields) : List Char := f.day ++ '/' :: f.month ++ '/' :: f.year

def seconds (f : TimeFields) : List Char :=
  match f.fraction with
  | none => f.second
  | some fraction => f.second ++ '.' :: fraction

def time (f : TimeFields) : List Char := f.hour ++ ':' :: f.minute ++ ':' :: f.seconds

def offset (f : TimeFields) : List Char := f.sign :: f.offsetHour ++ f.offsetMinute

def text (f : TimeFields) : List Char := f.date ++ ':' :: f.time ++ ' ' :: f.offset

end TimeFields

structure TimeNumbers where
  day : ℤ
  month : ℤ
  year : ℤ
  hour : ℤ
  minute : ℤ
  second : ℤ
  fraction : ℤ
  sign : ℤ
  offsetHour : ℤ
  offsetMinute : ℤ
  deriving DecidableEq, Repr

namespace TimeNumbers

def date (n : TimeNumbers) : Date := ⟨n.year, n.month, n.day⟩

/-- The microseconds since the beginning of 1970. -/
def exactMicros (n : TimeNumbers) : ℤ :=
  (dayNumber n.date * 86400 + n.hour * 3600 + n.minute * 60 + n.second -
    n.sign * (n.offsetHour * 3600 + n.offsetMinute * 60)) * 1000000 + n.fraction

/-- The arithmetic of the code. -/
def micros (checks : Bool) (n : TimeNumbers) : Except Halt ℤ := do
  let add := add checks
  let sub := sub checks
  let mul := mul checks
  let days ← daysFromCivil checks n.year n.month n.day
  let localSeconds ←
    add (← add (← add (← mul days 86400) (← mul n.hour 3600)) (← mul n.minute 60)) n.second
  let offsetSeconds ← mul n.sign (← add (← mul n.offsetHour 3600) (← mul n.offsetMinute 60))
  add (← mul (← sub localSeconds offsetSeconds) 1000000) n.fraction

end TimeNumbers

/-- The fields pass the tests of the code, which reads the numbers from them. -/
structure TimeFields.Reads (f : TimeFields) (n : TimeNumbers) : Prop where
  day : parseI64 f.day = some n.day
  month : monthNumber f.month = some n.month
  year : parseI64 f.year = some n.year
  hour : parseI64 f.hour = some n.hour
  minute : parseI64 f.minute = some n.minute
  second : parseI64 f.second = some n.second
  fraction : fractionMicros (f.fraction.getD []) = some n.fraction
  sign : offsetSign [f.sign] = some n.sign
  offsetHour : parseI64 f.offsetHour = some n.offsetHour
  offsetMinute : parseI64 f.offsetMinute = some n.offsetMinute
  time_range : n.day ≠ 0 ∧ n.day ≤ 31 ∧ n.hour ≤ 23 ∧ n.minute ≤ 59
  second_le : n.second ≤ 60
  fraction_length : (encodeUtf8 (f.fraction.getD [])).length ≤ 6
  fraction_digits : (f.fraction.getD []).all isAsciiDigitChar = true
  offset_length : f.offsetHour.length = 2 ∧ f.offsetMinute.length = 2
  offset_range : n.offsetHour ≤ 23 ∧ n.offsetMinute ≤ 59

section OptionT

variable {α β : Type} {a : α} {b : β}

theorem run_bind_some {x : OptionT (Except Halt) α} {f : α → OptionT (Except Halt) β} :
    (x >>= f).run = .ok (some b) ↔ ∃ a, x.run = .ok (some a) ∧ (f a).run = .ok (some b) := by
  rw [OptionT.run_bind]
  cases x.run with
  | error e => simp [Option.elimM, bind, Except.bind]
  | ok o =>
    cases o with
    | none => simp [Option.elimM, bind, Except.bind, pure, Except.pure]
    | some a => simp [Option.elimM, bind, Except.bind]

theorem run_getM {o : Option α} :
    (o.getM : OptionT (Except Halt) α).run = .ok (some a) ↔ o = some a := by
  cases o with
  | none => simp [Option.getM, failure, OptionT.fail, OptionT.mk, OptionT.run, pure, Except.pure]
  | some b => simp [Option.getM, pure, OptionT.pure, OptionT.mk, OptionT.run, Except.pure]

theorem run_failure : ¬ (failure : OptionT (Except Halt) α).run = .ok (some a) := by
  simp [failure, OptionT.fail, OptionT.mk, OptionT.run, pure, Except.pure]

theorem run_lift {x : Except Halt α} :
    (liftM x : OptionT (Except Halt) α).run = .ok (some a) ↔ x = .ok a := by
  cases x with
  | error e => simp [liftM, monadLift, MonadLift.monadLift, OptionT.lift, OptionT.mk, OptionT.run,
      bind, Except.bind]
  | ok b => simp [liftM, monadLift, MonadLift.monadLift, OptionT.lift, OptionT.mk, OptionT.run,
      bind, Except.bind, pure, Except.pure]

/-- A test in front of the rest. -/
theorem run_unless {c : Prop} [Decidable c] {f : α → OptionT (Except Halt) β}
    {x : OptionT (Except Halt) β} :
    (if c then failure >>= f else x).run = .ok (some b) ↔ ¬ c ∧ x.run = .ok (some b) := by
  split
  · rename_i hc
    refine iff_of_false ?_ fun h => h.1 hc
    intro h
    obtain ⟨a, ha, -⟩ := run_bind_some.mp h
    exact run_failure ha
  · rename_i hc
    simp [hc]

theorem run_getM_bind_error {halt : Halt} {o : Option α} {f : α → OptionT (Except Halt) β} :
    ((o.getM : OptionT (Except Halt) α) >>= f).run = .error halt ↔
      ∃ a, o = some a ∧ (f a).run = .error halt := by
  rw [OptionT.run_bind]
  cases o with
  | none => simp [Option.getM, failure, OptionT.fail, OptionT.mk, OptionT.run, Option.elimM, bind,
      Except.bind, pure, Except.pure]
  | some a => simp [Option.getM, Option.elimM, bind, Except.bind, pure, Except.pure,
      OptionT.pure, OptionT.mk, OptionT.run]

theorem run_lift_bind_error {halt : Halt} {x : Except Halt α}
    {f : α → OptionT (Except Halt) β} :
    ((liftM x : OptionT (Except Halt) α) >>= f).run = .error halt ↔
      x = .error halt ∨ ∃ a, x = .ok a ∧ (f a).run = .error halt := by
  rw [OptionT.run_bind]
  cases x with
  | error e => simp [liftM, monadLift, MonadLift.monadLift, OptionT.lift, OptionT.mk, OptionT.run,
      Option.elimM, bind, Except.bind]
  | ok a => simp [liftM, monadLift, MonadLift.monadLift, OptionT.lift, OptionT.mk, OptionT.run,
      Option.elimM, bind, Except.bind, pure, Except.pure]

theorem run_lift_error {halt : Halt} {x : Except Halt α} :
    (liftM x : OptionT (Except Halt) α).run = .error halt ↔ x = .error halt := by
  cases x with
  | error e => simp [liftM, monadLift, MonadLift.monadLift, OptionT.lift, OptionT.mk, OptionT.run,
      bind, Except.bind]
  | ok a => simp [liftM, monadLift, MonadLift.monadLift, OptionT.lift, OptionT.mk, OptionT.run,
      bind, Except.bind, pure, Except.pure]

theorem run_failure_error {halt : Halt} :
    ¬ (failure : OptionT (Except Halt) α).run = .error halt := by
  simp [failure, OptionT.fail, OptionT.mk, OptionT.run, pure, Except.pure]

theorem run_unless_error {halt : Halt} {c : Prop} [Decidable c]
    {f : α → OptionT (Except Halt) β} {x : OptionT (Except Halt) β} :
    (if c then failure >>= f else x).run = .error halt ↔ ¬ c ∧ x.run = .error halt := by
  split
  · rename_i hc
    refine iff_of_false ?_ fun h => h.1 hc
    exact run_failure_error
  · rename_i hc
    simp [hc]

end OptionT

/-- A digit or a sign. -/
def IsNumeric (c : Char) : Prop := 48 ≤ c.toNat ∧ c.toNat ≤ 57 ∨ c = '+' ∨ c = '-'

theorem IsNumeric.ascii {c : Char} (h : IsNumeric c) : c.toNat < 128 := by
  obtain ⟨-, hc⟩ | rfl | rfl := h
  · omega
  · decide
  · decide

theorem isNumeric_of_digit {c : Char} {d : ℕ} (h : digitValue 10 c = some d) : IsNumeric c := by
  refine .inl ?_
  unfold digitValue at h
  simp only at h
  split_ifs at h <;> omega

theorem isNumeric_of_numeral {text : List Char} {n : ℕ} (h : numeral 10 text = some n) :
    ∀ c ∈ text, IsNumeric c := by
  intro c hc
  obtain ⟨d, hd⟩ := digit_of_mem_numeral h hc
  exact isNumeric_of_digit hd

theorem natCast_eq_some {o : Option ℕ} {x : ℤ} :
    (do let n ← o; pure (n : ℤ)) = some x ↔ ∃ n : ℕ, o = some n ∧ (n : ℤ) = x := by
  cases o with
  | none => simp
  | some n => simp

theorem parseSigned_of_ne {limit : ℕ} {c : Char} {digits : List Char} (h : c ≠ '-') :
    parseSigned limit (c :: digits) =
      (parseUnsigned 10 limit (c :: digits)).map fun n : ℕ => (n : ℤ) := by
  unfold parseSigned
  split
  · rename_i hcons
    exact absurd (List.cons.inj hcons).1 h
  · cases parseUnsigned 10 limit (c :: digits) <;> rfl

/-- A number is read from digits, or from digits behind a sign. -/
theorem parseI64_eq_some {text : List Char} {x : ℤ} (h : parseI64 text = some x) :
    x < 2 ^ 63 ∧ ((∃ n : ℕ, numeral 10 text = some n ∧ x = n) ∨
      ∃ c digits n, (c = '+' ∨ c = '-') ∧ text = c :: digits ∧ numeral 10 digits = some n) := by
  rw [parseI64] at h
  cases text with
  | nil => cases h
  | cons c digits =>
    by_cases hminus : c = '-'
    · subst hminus
      obtain ⟨x', hx', rfl⟩ := Option.map_eq_some_iff.mp h
      obtain ⟨n, hn, rfl⟩ := natCast_eq_some.mp hx'
      exact ⟨by omega, .inr ⟨'-', digits, n, .inr rfl, rfl, (Option.filter_eq_some_iff.mp hn).1⟩⟩
    · rw [parseSigned_of_ne hminus] at h
      obtain ⟨n, hn, rfl⟩ := Option.map_eq_some_iff.mp h
      rw [parseUnsigned] at hn
      obtain ⟨hnumeral, hlimit⟩ := Option.filter_eq_some_iff.mp hn
      have hlt : n < 2 ^ 63 := of_decide_eq_true hlimit
      refine ⟨by omega, ?_⟩
      by_cases hplus : c = '+'
      · subst hplus
        exact .inr ⟨'+', digits, n, .inl rfl, rfl, hnumeral⟩
      · have hstrip : stripPlus (c :: digits) = c :: digits := by
          unfold stripPlus
          split
          · rename_i hcons
            exact absurd (List.cons.inj hcons).1 hplus
          · rfl
        rw [hstrip] at hnumeral
        exact .inl ⟨n, hnumeral, rfl⟩

theorem parseI64_of_numeral {text : List Char} {n : ℕ} (h : numeral 10 text = some n)
    (hn : n < 2 ^ 63) : parseI64 text = some (n : ℤ) := by
  cases text with
  | nil => cases h
  | cons c digits =>
    have hminus : c ≠ '-' := by
      rintro rfl
      obtain ⟨d, hd⟩ := digit_of_mem_numeral h List.mem_cons_self
      cases hd
    have hlimit : n < i64Limit := hn
    rw [parseI64, parseSigned_of_ne hminus, parseUnsigned_of_numeral h hlimit]
    rfl

theorem isNumeric_of_parseI64 {text : List Char} {x : ℤ} (h : parseI64 text = some x) :
    ∀ c ∈ text, IsNumeric c := by
  obtain ⟨n, hn, -⟩ | ⟨c, digits, n, hc, rfl, hn⟩ := (parseI64_eq_some h).2
  · exact isNumeric_of_numeral hn
  · exact List.forall_mem_cons.mpr ⟨.inr hc, isNumeric_of_numeral hn⟩

/-- The separators are no numeric characters and occur in no name of a month. -/
theorem monthNumber_eq_some {month : List Char} {n : ℤ} (h : monthNumber month = some n) :
    (1 ≤ n ∧ n ≤ 12) ∧ '/' ∉ month ∧ ':' ∉ month := by
  obtain ⟨x, hx, rfl⟩ := Option.map_eq_some_iff.mp h
  obtain ⟨index, hindex, rfl⟩ := natCast_eq_some.mp hx
  obtain ⟨hlt, hname, -⟩ := List.findIdx?_eq_some_iff_getElem.mp hindex
  have hnames : ∀ name ∈ ["Jan", "Feb", "Mar", "Apr", "May", "Jun", "Jul", "Aug", "Sep", "Oct",
      "Nov", "Dec"], '/' ∉ name.toList ∧ ':' ∉ name.toList := by
    decide
  have hmonth := of_decide_eq_true hname
  refine ⟨⟨by omega, ?_⟩, ?_⟩
  · have : index < 12 := hlt
    omega
  · rw [← hmonth]
    exact hnames _ (List.getElem_mem hlt)

/-- No field has the separator that ends it. -/
structure TimeFields.Separated (f : TimeFields) : Prop where
  day : '/' ∉ f.day
  month : '/' ∉ f.month
  year : '/' ∉ f.year
  date : ':' ∉ f.date
  hour : ':' ∉ f.hour
  minute : ':' ∉ f.minute
  seconds : ':' ∉ f.seconds
  second : '.' ∉ f.second
  offset : ' ' ∉ f.offset
  offset_length : f.offsetHour.length = 2 ∧ f.offsetMinute.length = 2

namespace TimeFields.Separated

variable {f g : TimeFields}

theorem splitOnce_seconds (h : f.Separated) :
    splitOnce '.' f.seconds = f.fraction.map fun fraction => (f.second, fraction) := by
  rw [TimeFields.seconds]
  cases f.fraction with
  | none => exact splitOnce_eq_none h.second
  | some fraction => exact splitOnce_append h.second

theorem seconds_parts (h : f.Separated) :
    (splitOnce '.' f.seconds).getD (f.seconds, []) = (f.second, f.fraction.getD []) := by
  rw [h.splitOnce_seconds, TimeFields.seconds]
  cases f.fraction with
  | none => rfl
  | some fraction => rfl

/-- The fields are determined by the text. -/
theorem ext_text (hf : f.Separated) (hg : g.Separated) (h : f.text = g.text) : f = g := by
  have hsplit := congrArg (rsplitOnce ' ') h
  rw [text, text, rsplitOnce_append hf.offset, rsplitOnce_append hg.offset] at hsplit
  obtain ⟨hdateTime, hoffset⟩ := Prod.mk.inj (Option.some.inj hsplit)
  have hsplit := congrArg (splitOnce ':') hdateTime
  rw [splitOnce_append hf.date, splitOnce_append hg.date] at hsplit
  obtain ⟨hdate, htime⟩ := Prod.mk.inj (Option.some.inj hsplit)
  have hsplit := congrArg (List.splitOn '/') hdate
  rw [TimeFields.date, TimeFields.date, splitOn_three hf.day hf.month hf.year,
    splitOn_three hg.day hg.month hg.year] at hsplit
  have hsplit' := congrArg (List.splitOn ':') htime
  rw [TimeFields.time, TimeFields.time, splitOn_three hf.hour hf.minute hf.seconds,
    splitOn_three hg.hour hg.minute hg.seconds] at hsplit'
  simp only [List.cons.injEq, and_true] at hsplit hsplit'
  obtain ⟨hday, hmonth, hyear⟩ := hsplit
  obtain ⟨hhour, hminute, hseconds⟩ := hsplit'
  have hfraction : f.second = g.second ∧ f.fraction = g.fraction := by
    have hsplit := congrArg (splitOnce '.') hseconds
    rw [hf.splitOnce_seconds, hg.splitOnce_seconds] at hsplit
    rw [TimeFields.seconds, TimeFields.seconds] at hseconds
    cases hfraction : f.fraction with
    | none =>
      cases hfraction' : g.fraction with
      | none =>
        rw [hfraction, hfraction'] at hseconds
        exact ⟨hseconds, rfl⟩
      | some fraction =>
        rw [hfraction, hfraction'] at hsplit
        cases hsplit
    | some fraction =>
      cases hfraction' : g.fraction with
      | none =>
        rw [hfraction, hfraction'] at hsplit
        cases hsplit
      | some fraction' =>
        rw [hfraction, hfraction'] at hsplit
        obtain ⟨hsecond, rfl⟩ := Prod.mk.inj (Option.some.inj hsplit)
        exact ⟨hsecond, rfl⟩
  obtain ⟨hsign, hdigits⟩ := List.cons.inj hoffset
  obtain ⟨hoffsetHour, hoffsetMinute⟩ :=
    List.append_inj hdigits (hf.offset_length.1.trans hg.offset_length.1.symm)
  cases f
  cases g
  simp only [TimeFields.mk.injEq]
  exact ⟨hday, hmonth, hyear, hhour, hminute, hfraction.1, hfraction.2, hsign, hoffsetHour,
    hoffsetMinute⟩

end TimeFields.Separated

theorem IsNumeric.ne {c : Char} (h : IsNumeric c) :
    c ≠ '/' ∧ c ≠ ':' ∧ c ≠ '.' ∧ c ≠ ' ' := by
  obtain ⟨hlow, hhigh⟩ | rfl | rfl := h
  · refine ⟨?_, ?_, ?_, ?_⟩
    · rintro rfl
      exact absurd hlow (by decide)
    · rintro rfl
      exact absurd hhigh (by decide)
    · rintro rfl
      exact absurd hlow (by decide)
    · rintro rfl
      exact absurd hlow (by decide)
  · decide
  · decide

/-- What is made of digits and signs has no separators. -/
theorem not_mem_of_numeric {text : List Char} (h : ∀ c ∈ text, IsNumeric c) :
    '/' ∉ text ∧ ':' ∉ text ∧ '.' ∉ text ∧ ' ' ∉ text :=
  ⟨fun hc => (h _ hc).ne.1 rfl, fun hc => (h _ hc).ne.2.1 rfl, fun hc => (h _ hc).ne.2.2.1 rfl,
    fun hc => (h _ hc).ne.2.2.2 rfl⟩

/-- The numeric fields are made of digits and signs. -/
structure TimeFields.Numeric (f : TimeFields) : Prop where
  texts : ∀ text ∈ [f.day, f.year, f.hour, f.minute, f.second, f.fraction.getD [], f.offsetHour,
    f.offsetMinute], ∀ c ∈ text, IsNumeric c
  month : ∃ n, monthNumber f.month = some n
  sign : f.sign = '+' ∨ f.sign = '-'
  offset_length : f.offsetHour.length = 2 ∧ f.offsetMinute.length = 2

theorem TimeFields.Numeric.separated {f : TimeFields} (h : f.Numeric) : f.Separated := by
  obtain ⟨n, hmonth⟩ := h.month
  obtain ⟨-, hslash, hcolon⟩ := monthNumber_eq_some hmonth
  have hnot : ∀ text ∈ [f.day, f.year, f.hour, f.minute, f.second, f.fraction.getD [],
      f.offsetHour, f.offsetMinute], '/' ∉ text ∧ ':' ∉ text ∧ '.' ∉ text ∧ ' ' ∉ text :=
    fun text htext => not_mem_of_numeric (h.texts text htext)
  simp only [List.forall_mem_cons, List.not_mem_nil, false_imp_iff, forall_const, and_true] at hnot
  obtain ⟨hday, hyear, hhour, hminute, hsecond, hfraction, hoffsetHour, hoffsetMinute⟩ := hnot
  constructor
  · exact hday.1
  · exact hslash
  · exact hyear.1
  · simp [TimeFields.date, hday.2.1, hcolon, hyear.2.1]
  · exact hhour.2.1
  · exact hminute.2.1
  · rw [TimeFields.seconds]
    cases hf : f.fraction with
    | none => exact hsecond.2.1
    | some fraction =>
      rw [hf] at hfraction
      simpa [hsecond.2.1] using hfraction.2.1
  · exact hsecond.2.2.1
  · obtain hsign | hsign := h.sign <;>
      simp [TimeFields.offset, hsign, hoffsetHour.2.2.2, hoffsetMinute.2.2.2]
  · exact h.offset_length

theorem TimeFields.Reads.numeric {f : TimeFields} {n : TimeNumbers} (h : f.Reads n) :
    f.Numeric where
  texts := by
    have hfraction : ∀ c ∈ f.fraction.getD [], IsNumeric c := by
      intro c hc
      have hdigit := List.all_eq_true.mp h.fraction_digits c hc
      rw [isAsciiDigitChar, Bool.and_eq_true, decide_eq_true_eq, decide_eq_true_eq] at hdigit
      exact .inl hdigit
    simp only [List.forall_mem_cons, List.not_mem_nil, false_imp_iff, forall_const, and_true]
    exact ⟨isNumeric_of_parseI64 h.day, isNumeric_of_parseI64 h.year,
      isNumeric_of_parseI64 h.hour, isNumeric_of_parseI64 h.minute,
      isNumeric_of_parseI64 h.second, hfraction, isNumeric_of_parseI64 h.offsetHour,
      isNumeric_of_parseI64 h.offsetMinute⟩
  month := ⟨n.month, h.month⟩
  sign := by
    have hsign := h.sign
    unfold offsetSign at hsign
    split at hsign
    · rename_i heq
      exact .inl (List.cons.inj heq).1
    · rename_i heq
      exact .inr (List.cons.inj heq).1
    · cases hsign
  offset_length := h.offset_length

/-- A sign takes one byte. -/
theorem encodeUtf8_sign {c : Char} (hc : c = '+' ∨ c = '-') (rest : List Char) :
    ∃ b, encodeUtf8 (c :: rest) = b :: encodeUtf8 rest := by
  obtain rfl | rfl := hc
  · exact ⟨_, rfl⟩
  · exact ⟨_, rfl⟩

section Slices

variable {c : Char} {rest : List Char}

theorem slice_one_three (hc : c = '+' ∨ c = '-') : slice (c :: rest) 1 3 =
    orHalt (.panic "byte index is not a char boundary")
      (decodeUtf8 ((encodeUtf8 rest).take 2)) := by
  obtain ⟨b, hb⟩ := encodeUtf8_sign hc rest
  rw [slice, hb]
  rfl

theorem slice_three_five (hc : c = '+' ∨ c = '-')
    (hlength : (encodeUtf8 (c :: rest)).length = 5) : slice (c :: rest) 3 5 =
    orHalt (.panic "byte index is not a char boundary")
      (decodeUtf8 ((encodeUtf8 rest).drop 2)) := by
  obtain ⟨b, hb⟩ := encodeUtf8_sign hc rest
  rw [slice, List.take_of_length_le hlength.le, hb]
  rfl

end Slices

theorem slice_offset {f : TimeFields} (h : f.Numeric) :
    (encodeUtf8 f.offset).length = 5 ∧ slice f.offset 1 3 = .ok f.offsetHour ∧
      slice f.offset 3 5 = .ok f.offsetMinute := by
  obtain ⟨b, hb⟩ := encodeUtf8_sign h.sign (f.offsetHour ++ f.offsetMinute)
  have hhour : (encodeUtf8 f.offsetHour).length = 2 := by
    rw [length_encodeUtf8 fun c hc => (h.texts f.offsetHour (by simp) c hc).ascii]
    exact h.offset_length.1
  have hminute : (encodeUtf8 f.offsetMinute).length = 2 := by
    rw [length_encodeUtf8 fun c hc => (h.texts f.offsetMinute (by simp) c hc).ascii]
    exact h.offset_length.2
  rw [TimeFields.offset, List.cons_append]
  have hlength : (encodeUtf8 (f.sign :: (f.offsetHour ++ f.offsetMinute))).length = 5 := by
    rw [hb, encodeUtf8_append, List.length_cons, List.length_append, hhour, hminute]
  refine ⟨hlength, ?_, ?_⟩
  · rw [slice_one_three h.sign, encodeUtf8_append, List.take_left' hhour, decodeUtf8_encodeUtf8]
    rfl
  · rw [slice_three_five h.sign hlength, encodeUtf8_append, List.drop_left' hhour,
      decodeUtf8_encodeUtf8]
    rfl

theorem exists_sign {offset : List Char} {x : ℤ} (h : offsetSign offset = some x) :
    ∃ c rest, offset = c :: rest ∧ (c = '+' ∨ c = '-') ∧ offsetSign [c] = some x := by
  unfold offsetSign at h
  split at h
  · exact ⟨'+', _, rfl, .inl rfl, h⟩
  · exact ⟨'-', _, rfl, .inr rfl, h⟩
  · cases h

theorem offsetSign_offset {f : TimeFields} (h : f.sign = '+' ∨ f.sign = '-') :
    offsetSign f.offset = offsetSign [f.sign] := by
  rw [TimeFields.offset]
  obtain hsign | hsign := h
  · rw [hsign]
    rfl
  · rw [hsign]
    rfl

theorem slices_eq {offset offsetHour offsetMinute : List Char} {sign x y : ℤ}
    (hsign : offsetSign offset = some sign) (hlength : (encodeUtf8 offset).length = 5)
    (hhour : slice offset 1 3 = .ok offsetHour) (hx : parseI64 offsetHour = some x)
    (hminute : slice offset 3 5 = .ok offsetMinute) (hy : parseI64 offsetMinute = some y) :
    ∃ c, offset = c :: offsetHour ++ offsetMinute ∧ offsetSign [c] = some sign ∧
      offsetHour.length = 2 ∧ offsetMinute.length = 2 := by
  obtain ⟨c, rest, rfl, hc, hsign⟩ := exists_sign hsign
  rw [slice_one_three hc] at hhour
  rw [slice_three_five hc hlength] at hminute
  obtain ⟨b, hb⟩ := encodeUtf8_sign hc rest
  rw [hb, List.length_cons] at hlength
  have hfirst := encodeUtf8_of_decodeUtf8 (some_of_orHalt hhour)
  have hsecond := encodeUtf8_of_decodeUtf8 (some_of_orHalt hminute)
  have hlengths : ∀ {text : List Char} {x : ℤ}, parseI64 text = some x →
      (encodeUtf8 text).length = text.length := fun htext =>
    length_encodeUtf8 fun c hc => (isNumeric_of_parseI64 htext c hc).ascii
  refine ⟨c, ?_, hsign, ?_, ?_⟩
  · have hrest : encodeUtf8 rest = encodeUtf8 (offsetHour ++ offsetMinute) := by
      rw [encodeUtf8_append, hfirst, hsecond, List.take_append_drop]
    rw [encodeUtf8_injective hrest]
    rfl
  · rw [← hlengths hx, hfirst, List.length_take]
    omega
  · rw [← hlengths hy, hsecond, List.length_drop]
    omega

/-- The seconds are split at the first dot, where there is one. -/
theorem exists_fraction (seconds : List Char) :
    ∃ second fraction, (splitOnce '.' seconds).getD (seconds, []) = (second, fraction.getD []) ∧
      seconds = match fraction with
        | none => second
        | some fraction => second ++ '.' :: fraction := by
  cases hsplit : splitOnce '.' seconds with
  | none => exact ⟨seconds, none, rfl, rfl⟩
  | some parts => exact ⟨parts.1, some parts.2, rfl, (splitOnce_eq_some hsplit).1⟩

theorem exists_reads {checks : Bool} {value : List Char} {v : ℤ}
    (h : parseTimestamp checks value = .ok (some v)) :
    ∃ f n, value = TimeFields.text f ∧ f.Reads n ∧ n.micros checks = .ok v := by
  simp only [parseTimestamp, run_bind_some, run_getM, Prod.exists] at h
  obtain ⟨dateTime, offset, hvalue, date, time, hdateTime, h⟩ := h
  split at h
  · rename_i day month year hdate
    simp only [run_bind_some, run_getM] at h
    obtain ⟨dayNumber, hday, monthNumber, hmonth, yearNumber, hyear, h⟩ := h
    split at h
    · rename_i hour minute seconds more htime
      obtain ⟨second, fraction, hseconds, rfl⟩ := exists_fraction seconds
      simp only [run_bind_some, run_getM, run_unless, run_lift, hseconds] at h
      obtain ⟨hourNumber, hhour, minuteNumber, hminute, hrange, secondNumber, hsecond, htests,
        fractionNumber, hfraction, signNumber, hsign, hlength, offsetHour, hslice,
        offsetHourNumber, hoffsetHour, offsetMinute, hslice', offsetMinuteNumber, hoffsetMinute,
        hoffset, hmicros⟩ := h
      simp only [not_or, not_not, gt_iff_lt, not_lt, Bool.not_eq_true, Bool.not_eq_false',
        ne_eq] at hrange htests hlength hoffset
      obtain ⟨rfl, hrange⟩ := hrange
      obtain ⟨c, rfl, hsign, hlengths⟩ :=
        slices_eq hsign hlength hslice hoffsetHour hslice' hoffsetMinute
      refine ⟨⟨day, month, year, hour, minute, second, fraction, c, offsetHour, offsetMinute⟩,
        ⟨dayNumber, monthNumber, yearNumber, hourNumber, minuteNumber, secondNumber,
          fractionNumber, signNumber, offsetHourNumber, offsetMinuteNumber⟩, ?_, ?_, ?_⟩
      · rw [rsplitOnce_eq_some hvalue, (splitOnce_eq_some hdateTime).1, eq_of_splitOn_three hdate,
          eq_of_splitOn_three htime]
        rfl
      · exact ⟨hday, hmonth, hyear, hhour, hminute, hsecond, hfraction, hsign, hoffsetHour,
          hoffsetMinute, hrange, htests.1, htests.2.1, htests.2.2, hlengths, hoffset⟩
      · simp only [TimeNumbers.micros, bind_eq_ok]
        exact hmicros
    · exact absurd h run_failure
  · exact absurd h run_failure

theorem parseTimestamp_text {checks : Bool} {f : TimeFields} {n : TimeNumbers} {v : ℤ}
    (h : f.Reads n) (hv : n.micros checks = .ok v) :
    parseTimestamp checks f.text = .ok (some v) := by
  have hseparated := h.numeric.separated
  obtain ⟨hlength, hslice, hslice'⟩ := slice_offset h.numeric
  have hsplit : f.date.splitOn '/' = [f.day, f.month, f.year] :=
    splitOn_three hseparated.day hseparated.month hseparated.year
  have hsplit' : f.time.splitOn ':' = [f.hour, f.minute, f.seconds] :=
    splitOn_three hseparated.hour hseparated.minute hseparated.seconds
  have hseconds := hseparated.seconds_parts
  have hsign : offsetSign f.offset = some n.sign :=
    (offsetSign_offset h.numeric.sign).trans h.sign
  simp only [parseTimestamp, run_bind_some, run_getM, Prod.exists]
  refine ⟨_, _, rsplitOnce_append hseparated.offset, _, _, splitOnce_append hseparated.date, ?_⟩
  simp only [hsplit, hsplit', run_bind_some, run_getM, run_unless, run_lift, hseconds]
  refine ⟨n.day, h.day, n.month, h.month, n.year, h.year, n.hour, h.hour, n.minute, h.minute, ?_,
    n.second, h.second, ?_, n.fraction, h.fraction, n.sign, hsign, not_not.mpr hlength,
    f.offsetHour, hslice, n.offsetHour, h.offsetHour, f.offsetMinute, hslice', n.offsetMinute,
    h.offsetMinute, ?_, ?_⟩
  · obtain ⟨hzero, hday, hhour, hminute⟩ := h.time_range
    simp [hzero, hday, hhour, hminute]
  · have hlength := h.fraction_length
    have hsecond := h.second_le
    simp only [h.fraction_digits]
    simp
    omega
  · obtain ⟨hhour, hminute⟩ := h.offset_range
    omega
  · simp only [TimeNumbers.micros, bind_eq_ok] at hv
    exact hv

/-- The texts that are accepted, and what is returned. -/
theorem parseTimestamp_eq_some_iff {checks : Bool} {value : List Char} {v : ℤ} :
    parseTimestamp checks value = .ok (some v) ↔
      ∃ f n, value = TimeFields.text f ∧ f.Reads n ∧ n.micros checks = .ok v := by
  constructor
  · exact exists_reads
  · rintro ⟨f, n, rfl, hreads, hmicros⟩
    exact parseTimestamp_text hreads hmicros

end Rload.AccessLog
