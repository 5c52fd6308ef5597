import Rload.PacedSlots
import Rload.RequestSequence
import Mathlib.Tactic.Positivity

/-!
# Pacing by a rate

The pacer of a rate rests after each slot for the interval of the rate, which is a second divided
by the rate and rounded to nanoseconds. Where it is rounded down, there is room for one slot too
many in a second.
-/

namespace Rload
open FloatingSeconds

/-- The two roundings of `1.0 / rate as f64` hardly show in its product with the rate. -/
theorem abs_seconds_mul_sub_le {rate : ℕ} (hrate : 1 ≤ rate) :
    |divF64 1 (toF64 rate) * rate - 1| ≤ 3 / 2 ^ 53 := by
  have hpos : (0 : ℚ) < rate := by exact_mod_cast hrate
  have hrounded := toF64_pos hpos
  obtain ⟨hlow, hhigh⟩ := abs_le.mp (abs_toF64_sub_le hpos)
  obtain ⟨hproduct_low, hproduct_high⟩ := abs_le.mp (abs_reciprocal_mul_sub_le hrounded)
  have hseconds : 0 < divF64 1 (toF64 rate) := by
    rw [divF64, if_neg one_ne_zero]
    exact toF64_pos (one_div_pos.mpr hrounded)
  have hle := mul_le_mul_of_nonneg_left hlow hseconds.le
  have hge := mul_le_mul_of_nonneg_left hhigh hseconds.le
  rw [abs_le]
  constructor <;> linarith

theorem seconds_pos {rate : ℕ} (hrate : 1 ≤ rate) : 0 < divF64 1 (toF64 rate) := by
  have hpos : (0 : ℚ) < rate := by exact_mod_cast hrate
  rw [divF64, if_neg one_ne_zero]
  exact toF64_pos (one_div_pos.mpr (toF64_pos hpos))

/-- The conversion does not panic. -/
theorem fromSecsF64_slotInterval {rate : ℕ} (hrate : 1 ≤ rate) :
    fromSecsF64 (divF64 1 (toF64 rate)) = some (slotInterval rate) := by
  have hpos := seconds_pos hrate
  have hone : (1 : ℚ) ≤ rate := by exact_mod_cast hrate
  have hle : divF64 1 (toF64 rate) ≤ divF64 1 (toF64 rate) * rate :=
    le_mul_of_one_le_right hpos.le hone
  obtain ⟨-, hproduct⟩ := abs_le.mp (abs_seconds_mul_sub_le hrate)
  have hfits : roundTiesToEven (divF64 1 (toF64 rate) * 10 ^ 9) < 2 ^ 64 * 10 ^ 9 := by
    apply roundTiesToEven_lt
    push_cast
    linarith
  rw [slotInterval, fromSecsF64, if_pos ⟨hpos.le, hfits⟩, Option.getD_some]

theorem slotInterval_eq {rate : ℕ} (hrate : 1 ≤ rate) :
    (slotInterval rate : ℤ) = roundTiesToEven (divF64 1 (toF64 rate) * 10 ^ 9) := by
  have hnonneg : 0 ≤ roundTiesToEven (divF64 1 (toF64 rate) * 10 ^ 9) :=
    roundTiesToEven_nonneg (mul_nonneg (seconds_pos hrate).le (by norm_num))
  have hinterval := fromSecsF64_slotInterval hrate
  rw [fromSecsF64] at hinterval
  split at hinterval
  · rw [← Option.some.inj hinterval, Int.toNat_of_nonneg hnonneg]
  · cases hinterval

/-- The interval is a whole number of nanoseconds next to the exact quotient. -/
theorem abs_slotInterval_sub_le {rate : ℕ} (hrate : 1 ≤ rate) :
    |(slotInterval rate : ℚ) - 10 ^ 9 / rate| ≤ 1 / 2 := by
  have hpos : (0 : ℚ) < rate := by exact_mod_cast hrate
  obtain ⟨hproduct_low, hproduct_high⟩ := abs_le.mp (abs_seconds_mul_sub_le hrate)
  have hrounded : |(slotInterval rate : ℚ) - divF64 1 (toF64 rate) * 10 ^ 9| ≤ 1 / 2 := by
    have hcast : (slotInterval rate : ℚ) = roundTiesToEven (divF64 1 (toF64 rate) * 10 ^ 9) := by
      exact_mod_cast congrArg (Int.cast : ℤ → ℚ) (slotInterval_eq hrate)
    rw [hcast]
    exact abs_roundTiesToEven_sub_le _
  generalize slotInterval rate = interval at hrounded ⊢
  generalize divF64 1 (toF64 rate) = seconds at *
  obtain ⟨hlow, hhigh⟩ := abs_le.mp hrounded
  have hmul_low := mul_le_mul_of_nonneg_right hlow hpos.le
  have hmul_high := mul_le_mul_of_nonneg_right hhigh hpos.le
  -- twice the error times the rate is a whole number
  have hwhole : |2 * ((interval : ℤ) * rate) - 2 * 10 ^ 9| ≤ (rate : ℤ) := by
    have hlt : |2 * ((interval : ℚ) * rate) - 2 * 10 ^ 9| < (rate : ℚ) + 1 := by
      rw [abs_lt]
      constructor <;> linarith
    have hint : |2 * ((interval : ℤ) * rate) - 2 * 10 ^ 9| < (rate : ℤ) + 1 := by
      exact_mod_cast hlt
    omega
  have hcast : |2 * ((interval : ℚ) * rate) - 2 * 10 ^ 9| ≤ (rate : ℚ) := by
    exact_mod_cast hwhole
  have htwice : 0 < 2 * (rate : ℚ) := mul_pos two_pos hpos
  have hscaled : 2 * ((interval : ℚ) * rate) - 2 * 10 ^ 9 =
      ((interval : ℚ) - 10 ^ 9 / rate) * (2 * (rate : ℚ)) := by
    field_simp
  rw [hscaled, abs_mul, abs_of_pos htwice] at hcast
  rw [← mul_le_mul_iff_left₀ htwice]
  linarith

namespace Pacer

/-- The slots for calls at the given times. -/
def slots (p : Pacer) : List ℕ → List ℕ
  | [] => []
  | now :: nows => (p.reserve now).1 :: (p.reserve now).2.slots nows

theorem slots_eq (interval next : ℕ) (nows : List ℕ) :
    slots ⟨interval, next⟩ nows = PacedSlots.slots (· + interval) next nows := by
  induction nows generalizing next with
  | nil => rfl
  | cons now nows ih => exact congrArg (List.cons _) (ih _)

/-- What the slots for calls at the given times have to be like. -/
structure KeepsRate (rate : ℕ) (nows slots : List ℕ) : Prop where
  afterCalls : List.Forall₂ (· ≤ ·) nows slots
  increasing : slots.Pairwise (· < ·)
  capped : ∀ low, (slots.filter fun slot => low ≤ slot ∧ slot < low + 10 ^ 9).length ≤ rate

theorem keepsRate_of_le {rate interval : ℕ} (hinterval : 10 ^ 9 ≤ rate * interval)
    (next : ℕ) (nows : List ℕ) :
    KeepsRate rate nows (PacedSlots.slots (· + interval) next nows) := by
  have hpos : 0 < interval := by
    by_contra hzero
    obtain rfl : interval = 0 := by omega
    omega
  have hspaced := PacedSlots.pairwise_slots (fun a => Nat.le_add_right a interval) next nows
  constructor
  · exact PacedSlots.now_le_slots next nows
  · exact hspaced.imp fun h => by omega
  · intro low
    have hlength := PacedSlots.length_window_mul_lt low (10 ^ 9) (hspaced.imp fun h _ _ => h) hpos
    by_contra hmore
    have hmul := Nat.mul_le_mul_right interval (Nat.succ_le_of_lt (Nat.lt_of_not_le hmore))
    rw [Nat.succ_mul] at hmul
    omega

theorem onTime_replicate {interval next now : ℕ} (h : now ≤ next) (count : ℕ) :
    PacedSlots.OnTime (· + interval) next (List.replicate count now) := by
  induction count generalizing next with
  | zero => exact ⟨⟩
  | succ count ih => exact ⟨h, ih (h.trans (Nat.le_add_right next interval))⟩

/-- With `rate + 1` calls at once the last slot is still in the second of the first one. -/
theorem not_keepsRate_of_lt {rate interval : ℕ} (hinterval : rate * interval < 10 ^ 9)
    (next : ℕ) :
    ¬ KeepsRate rate (List.replicate (rate + 1) next)
      (PacedSlots.slots (· + interval) next (List.replicate (rate + 1) next)) := by
  intro h
  rw [(onTime_replicate le_rfl (rate + 1)).slots, List.length_replicate] at h
  have hall : (List.iterate (· + interval) next (rate + 1)).filter
      (fun slot => next ≤ slot ∧ slot < next + 10 ^ 9) =
        List.iterate (· + interval) next (rate + 1) := by
    rw [List.filter_eq_self]
    intro slot hslot
    obtain ⟨m, hm, rfl⟩ := List.mem_iterate.mp hslot
    have hle : m * interval ≤ rate * interval :=
      Nat.mul_le_mul_right interval (Nat.le_of_lt_succ hm)
    have hwindow : next ≤ next + m * interval ∧ next + m * interval < next + 10 ^ 9 := by omega
    rw [add_right_iterate, smul_eq_mul]
    exact decide_eq_true hwindow
  have hcapped := h.capped next
  rw [hall, List.length_iterate] at hcapped
  omega

/-- The interval is the second divided by the rate, rounded to the nearest nanosecond. The slots
of all calls are as they have to be exactly when it has not been rounded down. -/
theorem keepsRate_iff (rate started : ℕ) (hrate : 1 ≤ rate) :
    |(slotInterval rate : ℚ) - 10 ^ 9 / rate| ≤ 1 / 2 ∧
      ((∀ nows, KeepsRate rate nows ((new rate started).slots nows)) ↔
        10 ^ 9 ≤ rate * slotInterval rate) := by
  refine ⟨abs_slotInterval_sub_le hrate, ?_⟩
  constructor
  · intro h
    by_contra hdown
    have hreplicate := h (List.replicate (rate + 1) started)
    rw [new, slots_eq] at hreplicate
    exact not_keepsRate_of_lt (Nat.lt_of_not_le hdown) started hreplicate
  · intro hinterval nows
    rw [new, slots_eq]
    exact keepsRate_of_le hinterval started nows

theorem keepsRate_iff_four :
    |(slotInterval 4 : ℚ) - 10 ^ 9 / (4 : ℕ)| ≤ 1 / 2 ∧
      ((∀ nows, KeepsRate 4 nows ((new 4 0).slots nows)) ↔ 10 ^ 9 ≤ 4 * slotInterval 4) :=
  keepsRate_iff 4 0 (by decide)

/-- Four of the slots of rate 3 are in the first second. -/
theorem four_slots_a_second : ¬ KeepsRate 3 [0, 0, 0, 0] ((new 3 0).slots [0, 0, 0, 0]) := by
  have hslots : (new 3 0).slots [0, 0, 0, 0] = [0, 333333333, 666666666, 999999999] := by
    decide +kernel
  intro h
  rw [hslots] at h
  have hcapped := h.capped 0
  revert hcapped
  decide

end Pacer

end Rload
