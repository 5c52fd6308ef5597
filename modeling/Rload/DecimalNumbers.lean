import Rload.FloatingSeconds
import Rload.TextScanning
import Mathlib.Data.Nat.Prime.Basic

/-!
# Decimal numbers

A text of the type `f64` has an optional sign, digits with a point and an exponent. What it denotes
is rounded to the nearest number of the type, and every number of the type has a text.
-/

namespace Rload.FloatingSeconds
open TextScanning

/-- The distance of the numbers of the type around `q`, also below the normal range. -/
def spacing (q : ℚ) : ℚ := 2 ^ (max (Int.log 2 |q|) (-1022) - 52)

/-- The nearest `f64`. `none` is an infinity. -/
def roundF64 (q : ℚ) : Option ℚ :=
  let rounded := roundTiesToEven (|q| / spacing q) * spacing q
  if rounded < 2 ^ 1024 then some (if q < 0 then -rounded else rounded) else none

def IsF64 (x : ℚ) : Prop := roundF64 x = some x

/-- Whether the number is negative, and what follows its sign. -/
def splitSign : List Char → Bool × List Char
  | '-' :: cs => (true, cs)
  | '+' :: cs => (false, cs)
  | cs => (false, cs)

/-- Digits with a point somewhere, or without one. -/
def mantissa (cs : List Char) : Option ℚ :=
  let (whole, fraction) := (splitOnce '.' cs).getD (cs, [])
  (numeral 10 (whole ++ fraction)).map fun n : ℕ => (n : ℚ) / 10 ^ fraction.length

def exponent (cs : List Char) : Option ℤ :=
  let (negative, digits) := splitSign cs
  (numeral 10 digits).map fun n : ℕ => if negative then -(n : ℤ) else n

def decimal (cs : List Char) : Option ℚ :=
  match splitOnce 'e' cs with
  | none => mantissa cs
  | some (digits, power) => do return (← mantissa digits) * 10 ^ (← exponent power)

/-- `parse::<f64>`. A number that is not finite is `some none`. -/
def parseF64 (text : List Char) : Option (Option ℚ) :=
  let (negative, number) := splitSign (text.map Char.toLower)
  if number = "inf".toList ∨ number = "infinity".toList ∨ number = "nan".toList then some none
  else (decimal number).map fun q => roundF64 (if negative then -q else q)

example : parseF64 "-1.5E+2".toList = some (some (-150)) := by decide +kernel

theorem roundTiesToEven_intCast (n : ℤ) : roundTiesToEven n = n := by
  simp [roundTiesToEven]

theorem spacing_pos (q : ℚ) : 0 < spacing q := zpow_pos two_pos _

/-- A number is one of the type if it is on the grid around it. -/
theorem isF64_of_grid {x : ℚ} (n : ℤ) (hgrid : |x| = n * spacing x) (hlt : |x| < 2 ^ 1024) :
    IsF64 x := by
  have hquotient : |x| / spacing x = n := by
    rw [hgrid, mul_div_assoc, div_self (spacing_pos x).ne', mul_one]
  rw [IsF64, roundF64, hquotient, roundTiesToEven_intCast, ← hgrid, if_pos hlt]
  congr 1
  split
  · rename_i hneg
    rw [abs_of_neg hneg, neg_neg]
  · rename_i hnonneg
    exact abs_of_nonneg (not_lt.mp hnonneg)

/-- A multiple of a power of two that is not finer than the grid around it is on that grid. -/
theorem isF64_of_multiple {x : ℚ} (n : ℤ) {power : ℤ} (hx : |x| = n * 2 ^ power)
    (hfine : max (Int.log 2 |x|) (-1022) - 52 ≤ power) (hlt : |x| < 2 ^ 1024) : IsF64 x := by
  obtain ⟨k, hk⟩ := Int.eq_ofNat_of_zero_le (sub_nonneg.mpr hfine)
  have hpower : (2 : ℚ) ^ power = 2 ^ k * spacing x := by
    rw [spacing, ← zpow_natCast, ← zpow_add₀ two_ne_zero]
    congr 1
    have hcast : (Int.ofNat k) = (k : ℤ) := rfl
    omega
  refine isF64_of_grid (n * 2 ^ k) ?_ hlt
  rw [hx, hpower]
  push_cast
  ring

theorem two_pow_mul_zpow (k : ℕ) (z : ℤ) : (2 : ℚ) ^ k * 2 ^ z = 2 ^ (z + k) := by
  rw [← zpow_natCast, ← zpow_add₀ two_ne_zero, add_comm]

theorem isF64_zero : IsF64 0 := isF64_of_grid 0 (by simp) (by simp)

theorem abs_lt_zpow (q : ℚ) : |q| < 2 ^ (max (Int.log 2 |q|) (-1022) + 1) :=
  (Int.lt_zpow_succ_log_self one_lt_two |q|).trans_le (zpow_le_zpow_right₀ one_le_two (by omega))

theorem rounded_le (q : ℚ) : roundTiesToEven (|q| / spacing q) ≤ 2 ^ 53 := by
  have hquotient : |q| / spacing q < 2 ^ 53 := by
    have hexponent : max (Int.log 2 |q|) (-1022) - 52 + (53 : ℕ) =
        max (Int.log 2 |q|) (-1022) + 1 := by omega
    rw [div_lt_iff₀ (spacing_pos q), spacing, two_pow_mul_zpow, hexponent]
    exact abs_lt_zpow q
  have hlt : roundTiesToEven (|q| / spacing q) < 2 ^ 53 + 1 := by
    apply roundTiesToEven_lt
    push_cast
    linarith
  omega

section Rounded

variable {x : ℚ} {n power : ℤ} (hpower : -1022 ≤ power) (hlt : |x| < 2 ^ 1024)

include hpower hlt

theorem isF64_of_lt (hx : |x| = n * 2 ^ (power - 52)) (hpos : 0 < n) (hn : n < 2 ^ 53) :
    IsF64 x := by
  refine isF64_of_multiple n hx ?_ hlt
  have habs : 0 < |x| := by
    rw [hx]
    exact mul_pos (by exact_mod_cast hpos) (zpow_pos two_pos _)
  have hbelow : |x| < 2 ^ (power + 1) := by
    have hn' : (n : ℚ) < 2 ^ 53 := by exact_mod_cast hn
    have hexponent : power - 52 + (53 : ℕ) = power + 1 := by omega
    calc |x| = n * 2 ^ (power - 52) := hx
      _ < 2 ^ 53 * 2 ^ (power - 52) := mul_lt_mul_of_pos_right hn' (zpow_pos two_pos _)
      _ = 2 ^ (power + 1) := by rw [two_pow_mul_zpow, hexponent]
  have hlog : Int.log 2 |x| < power + 1 := (Int.lt_zpow_iff_log_lt one_lt_two habs).mp hbelow
  omega

/-- The number above the last of a grid is the first of the next one. -/
theorem isF64_of_eq (hx : |x| = 2 ^ 53 * 2 ^ (power - 52)) : IsF64 x := by
  have hexponent : power - 52 + (53 : ℕ) = power + 1 := by omega
  rw [two_pow_mul_zpow, hexponent] at hx
  have hlog : Int.log 2 |x| = power + 1 := by
    rw [hx]
    exact Int.log_zpow one_lt_two _
  have hmultiple : |x| = (2 ^ 52 : ℤ) * 2 ^ (power + 1 - 52) := by
    have hexponent : power + 1 - 52 + (52 : ℕ) = power + 1 := by omega
    rw [hx, Int.cast_pow, Int.cast_ofNat, two_pow_mul_zpow, hexponent]
  exact isF64_of_multiple _ hmultiple (by omega) hlt

end Rounded

theorem isF64_natCast {n : ℕ} (hn : n < 2 ^ 53) : IsF64 n := by
  have hlt : |(n : ℚ)| < 2 ^ 53 := by
    rw [abs_of_nonneg n.cast_nonneg]
    exact_mod_cast hn
  have hgrid : |(n : ℚ)| = (n : ℤ) * 2 ^ (0 : ℤ) := by
    rw [abs_of_nonneg n.cast_nonneg, zpow_zero, mul_one, Int.cast_natCast]
  have hlarge : (2 : ℚ) ^ 53 < 2 ^ 1024 := pow_lt_pow_right₀ one_lt_two (by norm_num)
  refine isF64_of_multiple n hgrid ?_ (hlt.trans hlarge)
  obtain hzero | hpos := (abs_nonneg (n : ℚ)).eq_or_lt
  · rw [← hzero, Int.log_zero_right]
    decide
  · have hlog : Int.log 2 |(n : ℚ)| < 53 :=
      (Int.lt_zpow_iff_log_lt one_lt_two hpos).mp (by exact_mod_cast hlt)
    omega

/-- Rounding gives numbers of the type. -/
theorem isF64_of_round {q x : ℚ} (h : roundF64 q = some x) : IsF64 x := by
  rw [roundF64] at h
  split at h
  · rename_i hlt
    obtain ⟨n, hn⟩ : ∃ n, n = roundTiesToEven (|q| / spacing q) := ⟨_, rfl⟩
    have hnonneg : 0 ≤ n :=
      hn ▸ roundTiesToEven_nonneg (div_nonneg (abs_nonneg q) (spacing_pos q).le)
    have hle : n ≤ 2 ^ 53 := hn ▸ rounded_le q
    rw [← hn] at h hlt
    have habs : |x| = n * spacing q := by
      have hrounded : (0 : ℚ) ≤ n * spacing q :=
        mul_nonneg (by exact_mod_cast hnonneg) (spacing_pos q).le
      rw [← Option.some.inj h]
      split
      · rw [abs_neg, abs_of_nonneg hrounded]
      · exact abs_of_nonneg hrounded
    rw [← habs] at hlt
    have hpower : -1022 ≤ max (Int.log 2 |q|) (-1022) := le_max_right _ _
    rw [spacing] at habs
    rcases hle.lt_or_eq with hsmall | htop
    · rcases hnonneg.eq_or_lt with hzero | hpos
      · rw [← hzero, Int.cast_zero, zero_mul, abs_eq_zero] at habs
        rw [habs]
        exact isF64_zero
      · exact isF64_of_lt hpower hlt habs hpos hsmall
    · rw [htop, Int.cast_pow, Int.cast_ofNat] at habs
      exact isF64_of_eq hpower hlt habs
  · cases h

theorem isF64_of_parse {text : List Char} {x : ℚ} (h : parseF64 text = some (some x)) :
    IsF64 x := by
  rw [parseF64] at h
  dsimp only at h
  split at h
  · cases Option.some.inj h
  · obtain ⟨q, -, hround⟩ := Option.map_eq_some_iff.mp h
    exact isF64_of_round hround

/-- The denominator is a power of two. -/
theorem exists_den {x : ℚ} (h : IsF64 x) : ∃ k, x.den = 2 ^ k := by
  obtain ⟨n, power, hx⟩ : ∃ (n power : ℤ), x = n * 2 ^ power := by
    rw [IsF64, roundF64] at h
    split at h
    · have hx := Option.some.inj h
      split at hx
      · refine ⟨-roundTiesToEven (|x| / spacing x), max (Int.log 2 |x|) (-1022) - 52, ?_⟩
        rw [Int.cast_neg, neg_mul]
        exact hx.symm
      · exact ⟨roundTiesToEven (|x| / spacing x), max (Int.log 2 |x|) (-1022) - 52, hx.symm⟩
    · cases h
  rcases power with k | k
  · refine ⟨0, ?_⟩
    have hint : x = ((n * 2 ^ k : ℤ) : ℚ) := by
      rw [hx]
      push_cast
      rfl
    rw [hint, Rat.den_intCast, pow_zero]
  · have hdiv : x = Rat.divInt n (2 ^ (k + 1) : ℤ) := by
      rw [hx, Rat.divInt_eq_div, zpow_negSucc]
      push_cast
      rfl
    have hdvd : (x.den : ℤ) ∣ ((2 ^ (k + 1) : ℕ) : ℤ) := by
      rw [hdiv, Nat.cast_pow, Nat.cast_ofNat]
      exact Rat.den_dvd _ _
    obtain ⟨j, -, hj⟩ := (Nat.dvd_prime_pow Nat.prime_two).mp (Int.natCast_dvd_natCast.mp hdvd)
    exact ⟨j, hj⟩

/-- The number as digits and a power of ten. -/
def decimalText (x : ℚ) : List Char :=
  let k := Nat.log 2 x.den
  (x.num.toNat * 5 ^ k).repr.toList ++ 'e' :: '-' :: k.repr.toList

theorem isDigit_of_repr {n : ℕ} {c : Char} (hc : c ∈ n.repr.toList) : c.isDigit = true := by
  rw [Nat.toList_repr] at hc
  exact Nat.isDigit_of_mem_toDigits (by decide) (by decide) hc

theorem digitValue_of_isDigit {c : Char} (hc : c.isDigit = true) :
    digitValue 10 c = some (c.toNat - 48) := by
  rw [Char.isDigit, Bool.and_eq_true, decide_eq_true_eq, decide_eq_true_eq] at hc
  have hlow : 48 ≤ c.toNat := UInt32.le_iff_toNat_le.mp hc.1
  have hhigh : c.toNat ≤ 57 := UInt32.le_iff_toNat_le.mp hc.2
  have hvalue : c.toNat - 48 < 10 := by omega
  simp only [digitValue, hlow, hhigh, and_self, if_true, hvalue]

theorem mapM_digitValue {cs : List Char} (h : ∀ c ∈ cs, c.isDigit = true) :
    cs.mapM (digitValue 10) = some (cs.map fun c => c.toNat - 48) := by
  induction cs with
  | nil => rfl
  | cons c cs ih =>
    rw [List.forall_mem_cons] at h
    rw [List.mapM_cons, digitValue_of_isDigit h.1, ih h.2]
    rfl

theorem repr_ne_nil (n : ℕ) : n.repr.toList ≠ [] := by
  rw [Nat.toList_repr]
  exact Nat.toDigits_ne_nil

theorem numeral_repr (n : ℕ) : numeral 10 n.repr.toList = some n := by
  have hfold : ∀ (cs : List Char) (m : ℕ),
      (cs.map fun c => c.toNat - 48).foldl (fun n d => n * 10 + d) m =
        Nat.ofDigitChars 10 cs m := by
    intro cs
    induction cs with
    | nil => exact fun m => Nat.ofDigitChars_nil.symm
    | cons c cs ih =>
      intro m
      rw [List.map_cons, List.foldl_cons, Nat.ofDigitChars_cons, ih, Nat.mul_comm m 10]
      rfl
  rw [numeral, if_neg (repr_ne_nil n), mapM_digitValue fun c => isDigit_of_repr, Option.map_some,
    hfold, Nat.toList_repr, Nat.ofDigitChars_ten_toDigits]

theorem isDigit_ne {c d : Char} (hc : c.isDigit = true) (hd : d.isDigit = false) : c ≠ d := by
  rintro rfl
  rw [hc] at hd
  cases hd

theorem toLower_of_isDigit {c : Char} (hc : c.isDigit = true) : c.toLower = c := by
  rw [Char.isDigit, Bool.and_eq_true, decide_eq_true_eq, decide_eq_true_eq] at hc
  have hhigh : c.val.toNat ≤ 57 := UInt32.le_iff_toNat_le.mp hc.2
  refine dif_neg ?_
  rintro ⟨hupper, -⟩
  have hlow : 65 ≤ c.val.toNat := UInt32.le_iff_toNat_le.mp hupper
  omega

theorem not_mem_repr {n : ℕ} {d : Char} (hd : d.isDigit = false) : d ∉ n.repr.toList :=
  fun hmem => isDigit_ne (isDigit_of_repr hmem) hd rfl

theorem mantissa_repr (n : ℕ) : mantissa n.repr.toList = some (n : ℚ) := by
  rw [mantissa, splitOnce_eq_none (not_mem_repr (by decide))]
  simp only [Option.getD_none, List.append_nil, numeral_repr, Option.map_some, List.length_nil,
    pow_zero, div_one]

theorem exponent_repr (k : ℕ) : exponent ('-' :: k.repr.toList) = some (-(k : ℤ)) := by
  simp only [exponent, splitSign, numeral_repr, Option.map_some, if_true]

theorem splitSign_repr (n : ℕ) (rest : List Char) :
    splitSign (n.repr.toList ++ rest) = (false, n.repr.toList ++ rest) := by
  obtain ⟨c, cs, hcs⟩ := List.exists_cons_of_ne_nil (repr_ne_nil n)
  have hc : c.isDigit = true := isDigit_of_repr (n := n) (hcs ▸ List.mem_cons_self)
  have hminus : c ≠ '-' := isDigit_ne hc (by decide)
  have hplus : c ≠ '+' := isDigit_ne hc (by decide)
  rw [hcs, List.cons_append]
  unfold splitSign
  split
  · rename_i heq
    exact absurd (List.cons.inj heq).1 hminus
  · rename_i heq
    exact absurd (List.cons.inj heq).1 hplus
  · rfl

/-- The text of a number denotes it. -/
theorem decimal_decimalText {x : ℚ} (h : IsF64 x) (hx : 0 ≤ x) :
    decimal (decimalText x) = some x := by
  obtain ⟨k, hk⟩ := exists_den h
  have hlog : Nat.log 2 x.den = k := by
    rw [hk]
    exact Nat.log_pow one_lt_two k
  have hnum : ((x.num.toNat : ℕ) : ℚ) = x.num := by
    have hnonneg := Int.toNat_of_nonneg (Rat.num_nonneg.mpr hx)
    exact_mod_cast congrArg (Int.cast : ℤ → ℚ) hnonneg
  rw [decimalText, hlog, decimal, splitOnce_append (not_mem_repr (by decide))]
  have hten : (10 : ℚ) ^ k = 5 ^ k * 2 ^ k := by
    rw [← mul_pow]
    norm_num
  have hvalue : (((x.num.toNat * 5 ^ k : ℕ) : ℚ)) * 10 ^ (-(k : ℤ)) = x := by
    have hfive : (5 : ℚ) ^ k ≠ 0 := pow_ne_zero k (by norm_num)
    rw [Nat.cast_mul, Nat.cast_pow, Nat.cast_ofNat, hnum, zpow_neg, zpow_natCast, hten,
      ← div_eq_mul_inv, mul_comm (x.num : ℚ), mul_div_mul_left _ _ hfive]
    calc (x.num : ℚ) / 2 ^ k = x.num / x.den := by rw [hk, Nat.cast_pow, Nat.cast_ofNat]
      _ = x := Rat.num_div_den x
  simp only [mantissa_repr, exponent_repr, Option.bind_eq_bind, Option.bind_some, hvalue]
  rfl

/-- A text that starts with digits is no name of a number. -/
theorem parseF64_digits {n : ℕ} {rest : List Char} (hrest : rest.map Char.toLower = rest) :
    parseF64 (n.repr.toList ++ rest) = (decimal (n.repr.toList ++ rest)).map roundF64 := by
  have hlower : (n.repr.toList ++ rest).map Char.toLower = n.repr.toList ++ rest := by
    rw [List.map_append, hrest]
    congr 1
    exact (List.map_congr_left fun c hc => toLower_of_isDigit (isDigit_of_repr hc)).trans
      (List.map_id' _)
  have hword : ∀ {c : Char} {cs : List Char}, c.isDigit = false →
      n.repr.toList ++ rest ≠ c :: cs := by
    intro c cs hc heq
    obtain ⟨d, ds, hds⟩ := List.exists_cons_of_ne_nil (repr_ne_nil n)
    have hd : d.isDigit = true := isDigit_of_repr (hds ▸ List.mem_cons_self)
    rw [hds, List.cons_append] at heq
    exact isDigit_ne hd hc (List.cons.inj heq).1
  rw [parseF64, hlower, splitSign_repr]
  dsimp only
  rw [if_neg]
  · congr 1
  · rintro (heq | heq | heq)
    · exact hword (by decide) heq
    · exact hword (by decide) heq
    · exact hword (by decide) heq

theorem parseF64_decimalText {x : ℚ} (h : IsF64 x) (hx : 0 ≤ x) :
    parseF64 (decimalText x) = some (some x) := by
  have hrest : ('e' :: '-' :: (Nat.log 2 x.den).repr.toList).map Char.toLower =
      'e' :: '-' :: (Nat.log 2 x.den).repr.toList := by
    rw [List.map_cons, List.map_cons, List.map_congr_left fun c hc =>
      toLower_of_isDigit (isDigit_of_repr hc), List.map_id']
    rfl
  have hparse : parseF64 (decimalText x) = (decimal (decimalText x)).map roundF64 :=
    parseF64_digits hrest
  rw [hparse, decimal_decimalText h hx, Option.map_some, h]

theorem parseF64_repr {n : ℕ} (hn : n < 2 ^ 53) : parseF64 n.repr.toList = some (some (n : ℚ)) := by
  have hparse : parseF64 (n.repr.toList ++ []) = (decimal (n.repr.toList ++ [])).map roundF64 :=
    parseF64_digits rfl
  rw [List.append_nil] at hparse
  rw [hparse, decimal, splitOnce_eq_none (not_mem_repr (by decide))]
  dsimp only
  rw [mantissa_repr, Option.map_some, isF64_natCast hn]

end Rload.FloatingSeconds
