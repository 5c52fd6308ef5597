import Rload.AccessLog
import Rload.CivilCalendar
import Mathlib.Data.Int.ModEq

/-!
# The days of a log line

`days_from_civil` computes the number of a day in the calendar. Its operations on `i64` are exact
for all years that a log can reasonably have, and congruent elsewhere.
-/

namespace Rload.AccessLog
open CivilCalendar

def Fits (x : ℤ) : Prop := -(2 ^ 63) ≤ x ∧ x < 2 ^ 63

variable {checks : Bool} {operation : String} {x y : ℤ}

theorem fits_iff : -(i64Limit : ℤ) ≤ x ∧ x < i64Limit ↔ Fits x := by
  simp [i64Limit, Fits]

theorem i64_of_fits (operation : String) (h : Fits x) : i64 checks operation x = .ok x := by
  rw [i64, if_pos (fits_iff.mpr h)]

theorem bind_i64 {α : Type} (f : ℤ → Except Halt α) (hlow : -(2 ^ 63) ≤ x) (hhigh : x < 2 ^ 63) :
    (i64 checks operation x >>= f) = f x := by
  rw [i64_of_fits operation ⟨hlow, hhigh⟩]
  rfl

/-- What an operation returns is exact up to a multiple of `2 ^ 64`. -/
theorem i64_spec (h : i64 checks operation x = .ok y) : y ≡ x [ZMOD 2 ^ 64] ∧ Fits y := by
  rw [i64] at h
  split at h
  · rename_i hfits
    cases h
    exact ⟨rfl, fits_iff.mp hfits⟩
  · split at h
    · cases h
    · cases h
      refine ⟨Int.bmod_emod, ?_, ?_⟩
      · exact Int.le_bmod (by norm_num)
      · exact Int.bmod_lt (by norm_num)

/-- With overflow checks what is returned is exact. -/
theorem i64_checked (h : i64 true operation x = .ok y) : y = x ∧ Fits x := by
  rw [i64] at h
  split at h
  · rename_i hfits
    cases h
    exact ⟨rfl, fits_iff.mp hfits⟩
  · cases h

theorem i64_true_iff : i64 true operation x = .ok y ↔ Fits x ∧ y = x := by
  constructor
  · intro h
    obtain ⟨rfl, hfits⟩ := i64_checked h
    exact ⟨hfits, rfl⟩
  · rintro ⟨hfits, rfl⟩
    exact i64_of_fits operation hfits

theorem i64_false (operation : String) (x : ℤ) :
    i64 false operation x = .ok (x.bmod (2 ^ 64)) := by
  rw [i64]
  split
  · rename_i hfits
    obtain ⟨hlow, hhigh⟩ := fits_iff.mp hfits
    rw [Int.bmod_eq_of_le (by norm_num; omega) (by norm_num; omega)]
  · rfl

theorem eq_of_modEq (h : y ≡ x [ZMOD 2 ^ 64]) (hy : Fits y) (hx : Fits x) : y = x := by
  obtain ⟨hylow, hyhigh⟩ := hy
  obtain ⟨hxlow, hxhigh⟩ := hx
  obtain ⟨k, hk⟩ := h.dvd
  omega

/-- The program returns nothing but numbers that are congruent to the exact one. -/
def Computes (r : Except Halt ℤ) (x : ℤ) : Prop := ∀ y, r = .ok y → y ≡ x [ZMOD 2 ^ 64] ∧ Fits y

namespace Computes

theorem i64 {x' : ℤ} (h : x' ≡ x [ZMOD 2 ^ 64]) : Computes (i64 checks operation x') x := by
  intro y hy
  obtain ⟨hmod, hfits⟩ := i64_spec hy
  exact ⟨hmod.trans h, hfits⟩

theorem bind {r : Except Halt ℤ} {a : ℤ} {f : ℤ → Except Halt ℤ} (hr : Computes r a)
    (hf : ∀ y, y ≡ a [ZMOD 2 ^ 64] → Computes (f y) x) : Computes (r >>= f) x := by
  intro y hy
  obtain ⟨b, hb, hy⟩ := ok_of_bind hy
  exact hf b (hr b hb).1 y hy

end Computes

/-- The last operations, which alone may overflow. -/
def eraDays (checks : Bool) (era dayOfEra : ℤ) : Except Halt ℤ := do
  sub checks (← add checks (← mul checks era 146097) dayOfEra) 719468

theorem sub_eq_marchYear (year month : ℤ) :
    (year - if month ≤ 2 then 1 else 0) = marchYear year month := by
  unfold marchYear
  split_ifs <;> omega

/-- The other operations do not overflow unless the year is among the first ones. -/
theorem daysFromCivil_eq_eraDays (checks : Bool) {year month day : ℤ} (hpos : 1 ≤ month)
    (hle : month ≤ 12) (hday : 0 ≤ day) (hday' : day ≤ 31)
    (hlow : -(2 ^ 63) ≤ marchYear year month / 400 * 400) (hhigh : marchYear year month < 2 ^ 63) :
    daysFromCivil checks year month day =
      eraDays checks (marchYear year month / 400)
        (marchYear year month % 400 * 365 + marchYear year month % 400 / 4 -
          marchYear year month % 400 / 100 + dayOfYear month day) := by
  have hshift : (month + if month > 2 then -3 else 9) =
      if month ≤ 2 then month + 9 else month - 3 := by
    split_ifs <;> omega
  have hmonth : 0 ≤ (if month ≤ 2 then month + 9 else month - 3) ∧
      (if month ≤ 2 then month + 9 else month - 3) ≤ 11 := by
    split_ifs <;> omega
  rw [dayOfYear]
  simp only [daysFromCivil, sub, add, mul]
  rw [sub_eq_marchYear, hshift]
  clear hshift hpos hle
  generalize marchYear year month = march at hlow hhigh ⊢
  generalize (if month ≤ 2 then month + 9 else month - 3) = shifted at hmonth ⊢
  have hera : march - march / 400 * 400 = march % 400 := by omega
  have hfour : (march % 400).tdiv 4 = march % 400 / 4 :=
    Int.tdiv_eq_ediv_of_nonneg (by omega)
  have hhundred : (march % 400).tdiv 100 = march % 400 / 100 :=
    Int.tdiv_eq_ediv_of_nonneg (by omega)
  have hfive : (153 * shifted + 2).tdiv 5 = (153 * shifted + 2) / 5 :=
    Int.tdiv_eq_ediv_of_nonneg (by omega)
  rw [bind_i64 _ (by omega) (by omega), bind_i64 _ (by omega) (by omega), hera,
    bind_i64 _ (by omega) (by omega)]
  iterate 3 rw [bind_i64 _ (by omega) (by omega)]
  rw [hfive]
  iterate 3 rw [bind_i64 _ (by omega) (by omega)]
  rw [hfour, hhundred]
  iterate 3 rw [bind_i64 _ (by omega) (by omega)]
  rfl

theorem dayNumber_eq (date : Date) :
    dayNumber date = marchYear date.year date.month / 400 * 146097 +
      (marchYear date.year date.month % 400 * 365 + marchYear date.year date.month % 400 / 4 -
        marchYear date.year date.month % 400 / 100 + dayOfYear date.month date.day) - 719468 := by
  rw [dayNumber, yearStart]
  omega

theorem computes_eraDays (checks : Bool) (era dayOfEra : ℤ) :
    Computes (eraDays checks era dayOfEra) (era * 146097 + dayOfEra - 719468) :=
  .bind (.i64 rfl) fun _ hmul => .bind (.i64 (hmul.add_right _)) fun _ hadd =>
    .i64 (hadd.sub_right _)

theorem computes_daysFromCivil (checks : Bool) {date : Date} (hpos : 1 ≤ date.month)
    (hle : date.month ≤ 12) (hday : 0 ≤ date.day) (hday' : date.day ≤ 31)
    (hlow : -(2 ^ 63) ≤ marchYear date.year date.month / 400 * 400)
    (hhigh : marchYear date.year date.month < 2 ^ 63) :
    Computes (daysFromCivil checks date.year date.month date.day) (dayNumber date) := by
  rw [daysFromCivil_eq_eraDays checks hpos hle hday hday' hlow hhigh, dayNumber_eq]
  exact computes_eraDays checks _ _

theorem day_le {date : Date} (h : date.IsValid) : date.day ≤ 31 := by
  refine h.day_le.trans ?_
  unfold daysInMonth
  split_ifs <;> norm_num

theorem dayOfYear_bounds {date : Date} (h : date.IsValid) :
    0 ≤ dayOfYear date.month date.day ∧ dayOfYear date.month date.day ≤ 367 := by
  have hpos := h.month_pos
  have hle := h.month_le
  have hday := h.day_pos
  have hday' := day_le h
  unfold dayOfYear
  split_ifs <;> omega

theorem marchYear_bounds (year month : ℤ) :
    year - 1 ≤ marchYear year month ∧ marchYear year month ≤ year := by
  unfold marchYear
  split_ifs <;> omega

theorem dayNumber_bounds {date : Date} (h : date.IsValid) (hlow : 0 ≤ date.year)
    (hhigh : date.year ≤ 9999) : -1000000 ≤ dayNumber date ∧ dayNumber date ≤ 5000000 := by
  obtain ⟨hday, hday'⟩ := dayOfYear_bounds h
  obtain ⟨hyear, hyear'⟩ := marchYear_bounds date.year date.month
  rw [dayNumber_eq]
  omega

/-- Nothing overflows for years up to `25 * 10 ^ 15` in either direction. -/
theorem daysFromCivil_eq (checks : Bool) {date : Date} (h : date.IsValid)
    (hlow : -(25 * 10 ^ 15) ≤ date.year) (hhigh : date.year ≤ 25 * 10 ^ 15) :
    daysFromCivil checks date.year date.month date.day = .ok (dayNumber date) := by
  obtain ⟨hday, hday'⟩ := dayOfYear_bounds h
  obtain ⟨hyear, hyear'⟩ := marchYear_bounds date.year date.month
  rw [daysFromCivil_eq_eraDays checks h.month_pos h.month_le (by linarith [h.day_pos]) (day_le h)
    (by omega) (by omega), dayNumber_eq, eraDays]
  simp only [mul, add, sub]
  rw [bind_i64 _ (by omega) (by omega), bind_i64 _ (by omega) (by omega)]
  exact i64_of_fits _ ⟨by omega, by omega⟩

/-- Whatever overflows, a number of a day that fits is not returned wrong. -/
theorem daysFromCivil_of_fits {date : Date} (h : date.IsValid) (hfits : Fits (dayNumber date))
    {days : ℤ} (hdays : daysFromCivil checks date.year date.month date.day = .ok days) :
    days = dayNumber date := by
  obtain ⟨hday, hday'⟩ := dayOfYear_bounds h
  obtain ⟨hlow, hhigh⟩ := hfits
  have hcomputes : Computes (daysFromCivil checks date.year date.month date.day)
      (dayNumber date) := by
    rw [dayNumber_eq] at hlow hhigh
    exact computes_daysFromCivil checks h.month_pos h.month_le (by linarith [h.day_pos])
      (day_le h) (by omega) (by omega)
  obtain ⟨hmod, hfits⟩ := hcomputes days hdays
  exact eq_of_modEq hmod hfits ⟨hlow, hhigh⟩

/-- With overflow checks, what is returned for any year is the number of the day. -/
theorem daysFromCivil_checked {date : Date} (h : date.IsValid) {days : ℤ}
    (hdays : daysFromCivil true date.year date.month date.day = .ok days) :
    days = dayNumber date := by
  have hfits : Fits (marchYear date.year date.month) ∧
      Fits (marchYear date.year date.month / 400 * 400) := by
    obtain ⟨march, hmarch, hrest⟩ := ok_of_bind hdays
    obtain ⟨rfl, hfits⟩ := i64_checked hmarch
    obtain ⟨start, hstart, -⟩ := ok_of_bind hrest
    obtain ⟨rfl, hfits'⟩ := i64_checked hstart
    rw [sub_eq_marchYear] at hfits hfits'
    exact ⟨hfits, hfits'⟩
  rw [daysFromCivil_eq_eraDays true h.month_pos h.month_le (by linarith [h.day_pos]) (day_le h)
    hfits.2.1 hfits.1.2] at hdays
  obtain ⟨eras, heras, hdays⟩ := ok_of_bind hdays
  obtain ⟨rfl, -⟩ := i64_checked heras
  obtain ⟨sum, hsum, hdays⟩ := ok_of_bind hdays
  obtain ⟨rfl, -⟩ := i64_checked hsum
  obtain ⟨rfl, -⟩ := i64_checked hdays
  exact (dayNumber_eq date).symm

end Rload.AccessLog
