import Mathlib.Data.Int.Log
import Mathlib.Data.Rat.Floor
import Mathlib.Tactic.Linarith
import Mathlib.Tactic.Ring

/-!
# Durations from floating point seconds

A finite `f64` is the rational number that it denotes. Its operations round the exact result
to 53 significant bits, ties to even; a conversion to a duration rounds to nanoseconds.
-/

namespace Rload.FloatingSeconds

/-- The nearest integer, the even one of two. -/
def roundTiesToEven (q : ℚ) : ℤ :=
  let low := ⌊q⌋
  let rest := q - low
  if rest < 1 / 2 then low
  else if 1 / 2 < rest then low + 1
  else if low % 2 = 0 then low else low + 1

/-- The `f64` nearest to a positive rational of the normal range. -/
def toF64 (q : ℚ) : ℚ :=
  let unit : ℚ := 2 ^ (Int.log 2 q - 52)
  roundTiesToEven (q / unit) * unit

def divF64 (a b : ℚ) : ℚ := if a = 0 then 0 else toF64 (a / b)

/-- `Duration::from_secs_f64` in nanoseconds, which panics when the seconds are negative or
do not fit 64 bits. -/
def fromSecsF64 (seconds : ℚ) : Option ℕ :=
  let nanos := roundTiesToEven (seconds * 10 ^ 9)
  if 0 ≤ seconds ∧ nanos < 2 ^ 64 * 10 ^ 9 then some nanos.toNat else none

theorem abs_roundTiesToEven_sub_le (q : ℚ) : |(roundTiesToEven q : ℚ) - q| ≤ 1 / 2 := by
  have hlow := Int.floor_le q
  have hhigh := Int.lt_floor_add_one q
  rw [abs_le, roundTiesToEven]
  split
  · constructor <;> linarith
  · split
    · push_cast
      constructor <;> linarith
    · split
      · constructor <;> linarith
      · push_cast
        constructor <;> linarith

/-- The relative error of a rounded number. -/
theorem abs_toF64_sub_le {q : ℚ} (hq : 0 < q) : |toF64 q - q| ≤ q / 2 ^ 53 := by
  have hunit : (0 : ℚ) < 2 ^ (Int.log 2 q - 52) := zpow_pos two_pos _
  have hexact : toF64 q - q = (roundTiesToEven (q / 2 ^ (Int.log 2 q - 52)) -
      q / 2 ^ (Int.log 2 q - 52)) * 2 ^ (Int.log 2 q - 52) := by
    rw [toF64, sub_mul, div_mul_cancel₀ q hunit.ne']
  have hsmall : (2 : ℚ) ^ (Int.log 2 q - 52) ≤ q / 2 ^ 52 := by
    have hlog : (2 : ℚ) ^ Int.log 2 q ≤ q := Int.zpow_log_le_self one_lt_two hq
    rw [zpow_sub₀ two_ne_zero]
    exact div_le_div_of_nonneg_right hlog (by positivity)
  calc |toF64 q - q|
      ≤ 1 / 2 * 2 ^ (Int.log 2 q - 52) := by
        rw [hexact, abs_mul, abs_of_pos hunit]
        exact mul_le_mul_of_nonneg_right (abs_roundTiesToEven_sub_le _) hunit.le
    _ ≤ 1 / 2 * (q / 2 ^ 52) := mul_le_mul_of_nonneg_left hsmall (by norm_num)
    _ = q / 2 ^ 53 := by ring

example : fromSecsF64 (divF64 1 4) = some 250000000 := by decide +kernel

theorem roundTiesToEven_nonneg {q : ℚ} (hq : 0 ≤ q) : 0 ≤ roundTiesToEven q := by
  obtain ⟨hlow, -⟩ := abs_le.mp (abs_roundTiesToEven_sub_le q)
  have hgt : (-1 : ℚ) < roundTiesToEven q := by linarith
  have hint : -1 < roundTiesToEven q := by exact_mod_cast hgt
  omega

theorem roundTiesToEven_lt {q : ℚ} {bound : ℤ} (hq : q < bound - 1 / 2) :
    roundTiesToEven q < bound := by
  obtain ⟨-, hhigh⟩ := abs_le.mp (abs_roundTiesToEven_sub_le q)
  have hlt : (roundTiesToEven q : ℚ) < bound := by linarith
  exact_mod_cast hlt

theorem toF64_pos {q : ℚ} (hq : 0 < q) : 0 < toF64 q := by
  obtain ⟨hlow, -⟩ := abs_le.mp (abs_toF64_sub_le hq)
  linarith

theorem abs_reciprocal_mul_sub_le {q : ℚ} (hq : 0 < q) : |divF64 1 q * q - 1| ≤ 1 / 2 ^ 53 := by
  have herror := abs_toF64_sub_le (one_div_pos.mpr hq)
  rw [divF64, if_neg one_ne_zero]
  calc |toF64 (1 / q) * q - 1|
      = |toF64 (1 / q) - 1 / q| * q := by
        rw [← abs_of_pos hq, ← abs_mul, abs_of_pos hq, sub_mul, one_div_mul_cancel hq.ne']
    _ ≤ 1 / q / 2 ^ 53 * q := mul_le_mul_of_nonneg_right herror hq.le
    _ = 1 / 2 ^ 53 := by
        rw [div_mul_eq_mul_div, one_div_mul_cancel hq.ne']

end Rload.FloatingSeconds
