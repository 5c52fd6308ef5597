import Rload.DecimalNumbers

/-!
# Monotone rounding

Rounding to the type `f64` keeps the order of numbers, and what is exact stays as it is.
-/

namespace Rload.FloatingSeconds

theorem roundTiesToEven_mem (q : ℚ) :
    ⌊q⌋ ≤ roundTiesToEven q ∧ roundTiesToEven q ≤ ⌊q⌋ + 1 := by
  rw [roundTiesToEven]
  split
  · omega
  · split
    · omega
    · split <;> omega

theorem roundTiesToEven_mono {p q : ℚ} (h : p ≤ q) : roundTiesToEven p ≤ roundTiesToEven q := by
  obtain ⟨-, hhigh⟩ := roundTiesToEven_mem p
  obtain ⟨hlow, -⟩ := roundTiesToEven_mem q
  obtain hsame | hlt := (Int.floor_le_floor h).eq_or_lt
  · rw [roundTiesToEven, roundTiesToEven, ← hsame]
    have hrest : p - ⌊p⌋ ≤ q - ⌊p⌋ := sub_le_sub_right h _
    split
    · split
      · exact le_refl _
      · split
        · omega
        · split <;> omega
    · rename_i hp
      rw [if_neg (fun hq => hp (hrest.trans_lt hq))]
      split
      · rename_i hp'
        rw [if_pos (hp'.trans_le hrest)]
      · split
        · split <;> omega
        · split <;> omega
  · omega

theorem toF64_zero : toF64 0 = 0 := by
  rw [toF64, zero_div, show (0 : ℚ) = ((0 : ℤ) : ℚ) from rfl, roundTiesToEven_intCast]
  simp

theorem toF64_nonneg {q : ℚ} (hq : 0 ≤ q) : 0 ≤ toF64 q := by
  obtain rfl | hpos := hq.eq_or_lt
  · rw [toF64_zero]
  · exact (toF64_pos hpos).le

/-- Rounding does not leave the powers of two around a number. -/
theorem toF64_between {q : ℚ} (hq : 0 < q) :
    2 ^ Int.log 2 q ≤ toF64 q ∧ toF64 q ≤ 2 ^ (Int.log 2 q + 1) := by
  have hunit : (0 : ℚ) < 2 ^ (Int.log 2 q - 52) := zpow_pos two_pos _
  have hfirst : (2 : ℚ) ^ Int.log 2 q = ((2 ^ 52 : ℤ) : ℚ) * 2 ^ (Int.log 2 q - 52) := by
    rw [Int.cast_pow, Int.cast_ofNat, two_pow_mul_zpow]
    congr 1
    omega
  have hlast : (2 : ℚ) ^ (Int.log 2 q + 1) = ((2 ^ 53 : ℤ) : ℚ) * 2 ^ (Int.log 2 q - 52) := by
    rw [Int.cast_pow, Int.cast_ofNat, two_pow_mul_zpow]
    congr 1
    omega
  rw [toF64, hfirst, hlast]
  constructor
  · apply mul_le_mul_of_nonneg_right _ hunit.le
    have hle : ((2 ^ 52 : ℤ) : ℚ) ≤ q / 2 ^ (Int.log 2 q - 52) := by
      rw [le_div_iff₀ hunit, ← hfirst]
      exact Int.zpow_log_le_self one_lt_two hq
    have hround := roundTiesToEven_mono hle
    rw [roundTiesToEven_intCast] at hround
    exact_mod_cast hround
  · apply mul_le_mul_of_nonneg_right _ hunit.le
    have hle : q / 2 ^ (Int.log 2 q - 52) ≤ ((2 ^ 53 : ℤ) : ℚ) := by
      rw [div_le_iff₀ hunit, ← hlast]
      exact (Int.lt_zpow_succ_log_self one_lt_two q).le
    have hround := roundTiesToEven_mono hle
    rw [roundTiesToEven_intCast] at hround
    exact_mod_cast hround

theorem toF64_mono {p q : ℚ} (hp : 0 ≤ p) (h : p ≤ q) : toF64 p ≤ toF64 q := by
  obtain rfl | hp := hp.eq_or_lt
  · rw [toF64_zero]
    exact toF64_nonneg h
  obtain hsame | hlt := (Int.log_mono_right hp h : Int.log 2 p ≤ Int.log 2 q).eq_or_lt
  · have hunit : (0 : ℚ) < 2 ^ (Int.log 2 q - 52) := zpow_pos two_pos _
    rw [toF64, toF64, hsame]
    apply mul_le_mul_of_nonneg_right _ hunit.le
    exact_mod_cast roundTiesToEven_mono (div_le_div_of_nonneg_right h hunit.le)
  · calc toF64 p ≤ 2 ^ (Int.log 2 p + 1) := (toF64_between hp).2
      _ ≤ 2 ^ Int.log 2 q := zpow_le_zpow_right₀ one_le_two (by omega)
      _ ≤ toF64 q := (toF64_between (hp.trans_le h)).1

/-- Counts below 2^53 are numbers of the type. -/
theorem toF64_natCast {n : ℕ} (hn : n < 2 ^ 53) : toF64 n = n := by
  obtain rfl | hpos := Nat.eq_zero_or_pos n
  · rw [Nat.cast_zero, toF64_zero]
  have hq : (0 : ℚ) < n := by exact_mod_cast hpos
  have hlog : Int.log 2 (n : ℚ) < 53 := by
    apply (Int.lt_zpow_iff_log_lt one_lt_two hq).mp
    exact_mod_cast hn
  obtain ⟨k, hk⟩ := Int.eq_ofNat_of_zero_le (show 0 ≤ 52 - Int.log 2 (n : ℚ) by omega)
  have hunit : (2 : ℚ) ^ (Int.log 2 (n : ℚ) - 52) = (2 ^ k)⁻¹ := by
    rw [show Int.log 2 (n : ℚ) - 52 = -(k : ℤ) by omega, zpow_neg, zpow_natCast]
  rw [toF64, hunit, div_inv_eq_mul, show (n : ℚ) * 2 ^ k = ((n * 2 ^ k : ℤ) : ℚ) by push_cast; rfl,
    roundTiesToEven_intCast]
  push_cast
  rw [mul_assoc, mul_inv_cancel₀ (pow_ne_zero k two_ne_zero), mul_one]

variable {a b : ℚ}

theorem divF64_le_one (ha : 0 ≤ a) (hb : 0 < b) (h : a ≤ b) : divF64 a b ≤ 1 := by
  rw [divF64]
  split
  · exact zero_le_one
  · calc toF64 (a / b) ≤ toF64 (1 : ℕ) := by
          rw [Nat.cast_one]
          exact toF64_mono (div_nonneg ha hb.le) ((div_le_one hb).mpr h)
      _ = 1 := by rw [toF64_natCast (by norm_num), Nat.cast_one]

theorem divF64_nonneg (ha : 0 ≤ a) (hb : 0 < b) : 0 ≤ divF64 a b := by
  rw [divF64]
  split
  · exact le_refl _
  · exact toF64_nonneg (div_nonneg ha hb.le)

theorem divF64_eq_zero_iff (ha : 0 ≤ a) (hb : 0 < b) : divF64 a b = 0 ↔ a = 0 := by
  rw [divF64]
  split
  · rename_i hzero
    simp [hzero]
  · rename_i hne
    have hpos : 0 < toF64 (a / b) := toF64_pos (div_pos (ha.lt_of_ne' hne) hb)
    exact ⟨fun h => absurd h hpos.ne', fun h => absurd h hne⟩

end Rload.FloatingSeconds
