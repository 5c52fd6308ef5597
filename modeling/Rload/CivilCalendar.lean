import Mathlib.Tactic.IntervalCases
import Mathlib.Tactic.Linarith

/-!
# The proleptic Gregorian calendar

The calendar that is in use today, for all years before and after. Days are counted from 1970 on
in eras of 400 years, whose years begin with March, so that the leap day is the last one.
-/

namespace CivilCalendar

structure Date where
  year : ℤ
  month : ℤ
  day : ℤ
  deriving DecidableEq, Repr

def isLeap (year : ℤ) : Bool := year % 4 = 0 && (year % 100 ≠ 0 || year % 400 = 0)

def daysInMonth (year month : ℤ) : ℤ :=
  if month = 2 then if isLeap year then 29 else 28
  else if month = 4 ∨ month = 6 ∨ month = 9 ∨ month = 11 then 30
  else 31

namespace Date

structure IsValid (date : Date) : Prop where
  month_pos : 1 ≤ date.month
  month_le : date.month ≤ 12
  day_pos : 1 ≤ date.day
  day_le : date.day ≤ daysInMonth date.year date.month

/-- The day after. -/
def next (date : Date) : Date :=
  if date.day < daysInMonth date.year date.month then ⟨date.year, date.month, date.day + 1⟩
  else if date.month < 12 then ⟨date.year, date.month + 1, 1⟩
  else ⟨date.year + 1, 1, 1⟩

end Date

/-- The year that begins with March. -/
def marchYear (year month : ℤ) : ℤ := if month ≤ 2 then year - 1 else year

/-- The day of the year that begins with March. -/
def dayOfYear (month day : ℤ) : ℤ :=
  (153 * (if month ≤ 2 then month + 9 else month - 3) + 2) / 5 + day - 1

/-- The days from the March that begins an era to the March of the year. -/
def yearStart (year : ℤ) : ℤ :=
  year / 400 * 146097 + (year % 400 * 365 + year % 400 / 4 - year % 400 / 100)

/-- The number of the day, which is 0 on 1 January 1970. -/
def dayNumber (date : Date) : ℤ :=
  yearStart (marchYear date.year date.month) + dayOfYear date.month date.day - 719468

/-- The length of the year that ends with the February of the given one. -/
theorem yearStart_succ (year : ℤ) :
    yearStart (year + 1) = yearStart year + if isLeap (year + 1) then 366 else 365 := by
  unfold yearStart isLeap
  simp only [Bool.and_eq_true, Bool.or_eq_true, decide_eq_true_eq]
  split <;> omega

/-- The day after the last one of a month that is not February. -/
theorem dayOfYear_last (year : ℤ) {month : ℤ} (hpos : 1 ≤ month) (hle : month ≤ 12)
    (hfebruary : month ≠ 2) :
    dayOfYear month (daysInMonth year month) + 1 =
      dayOfYear (if month < 12 then month + 1 else 1) 1 := by
  interval_cases month <;> simp_all [dayOfYear, daysInMonth]

theorem dayNumber_next {date : Date} (h : date.IsValid) :
    dayNumber date.next = dayNumber date + 1 := by
  obtain ⟨year, month, day⟩ := date
  obtain ⟨hpos, hle, -, hday⟩ := h
  simp only at hpos hle hday
  rw [Date.next]
  simp only
  split
  · -- within the month
    simp only [dayNumber, dayOfYear]
    omega
  · rename_i hlast
    obtain rfl : day = daysInMonth year month := le_antisymm hday (not_lt.mp hlast)
    by_cases hfebruary : month = 2
    · -- the year that begins with March ends
      subst hfebruary
      have hyear := yearStart_succ (year - 1)
      rw [Int.sub_add_cancel] at hyear
      simp only [dayNumber, dayOfYear, marchYear, daysInMonth] at hyear ⊢
      split at hyear <;> simp_all <;> omega
    · have hmonth := dayOfYear_last year hpos hle hfebruary
      split
      · rename_i hmore
        have hyear : marchYear year (month + 1) = marchYear year month := by
          unfold marchYear
          split_ifs <;> omega
        rw [if_pos hmore] at hmonth
        simp only [dayNumber, hyear, ← hmonth]
        omega
      · rename_i hmore
        obtain rfl : month = 12 := by omega
        have hyear : marchYear (year + 1) 1 = marchYear year 12 := by
          simp [marchYear]
        rw [if_neg hmore] at hmonth
        simp only [dayNumber, hyear, ← hmonth]
        omega

theorem dayNumber_epoch : dayNumber ⟨1970, 1, 1⟩ = 0 := by decide

end CivilCalendar
