import Rload.RejectionSampling
import Rload.RequestSequence

/-!
# Draws without modulo bias

Both functions `bounded` take the first 64-bit number that is not below the threshold. Of these
numbers the same share gives each result.
-/

namespace Rload
open RejectionSampling

variable {bound r fuel : ℕ} {low random v : UInt64}

/-- The numbers that are not drawn again. -/
def acceptedValues (bound : ℕ) : Set UInt64 := {v | rejectionThreshold bound ≤ v}

theorem toNat_bound (hlt : bound < 2 ^ 64) : (UInt64.ofNat bound).toNat = bound := by
  rw [UInt64.toNat_ofNat', Nat.mod_eq_of_lt hlt]

/-- The negation that wraps is the difference to `2 ^ 64`. -/
theorem toNat_rejectionThreshold (hpos : 0 < bound) (hlt : bound < 2 ^ 64) :
    (rejectionThreshold bound).toNat = threshold (2 ^ 64) bound := by
  have hneg : (0 - UInt64.ofNat bound).toNat = 2 ^ 64 - bound := by
    rw [UInt64.toNat_sub, toNat_bound hlt, UInt64.toNat_zero, Nat.add_zero]
    exact Nat.mod_eq_of_lt (by omega)
  rw [rejectionThreshold, UInt64.toNat_mod, hneg, toNat_bound hlt]
  rfl

theorem toNat_mod_bound (hlt : bound < 2 ^ 64) (v : UInt64) :
    (v % UInt64.ofNat bound).toNat = v.toNat % bound := by
  rw [UInt64.toNat_mod, toNat_bound hlt]

theorem mem_acceptedValues (hpos : 0 < bound) (hlt : bound < 2 ^ 64) :
    v ∈ acceptedValues bound ↔ v.toNat ∈ Finset.Ico (threshold (2 ^ 64) bound) (2 ^ 64) := by
  have hv : v.toNat < 2 ^ 64 := v.toNat_lt
  rw [acceptedValues, Set.mem_ofPred_eq, UInt64.le_iff_toNat_le, toNat_rejectionThreshold hpos hlt,
    Finset.mem_Ico]
  exact (and_iff_left hv).symm

/-- Every number below `2 ^ 64` is the number of one value. -/
theorem ncard_values {s : Finset ℕ} (hs : ∀ n ∈ s, n < 2 ^ 64) :
    Set.ncard {v : UInt64 | v.toNat ∈ s} = s.card := by
  apply ncard_preimage
  · intro v w h
    exact UInt64.toNat_inj.mp h
  · intro n hn
    exact ⟨UInt64.ofNat n, toNat_bound (hs n hn)⟩

theorem ncard_acceptedValues (hpos : 0 < bound) (hlt : bound < 2 ^ 64) :
    (acceptedValues bound).ncard = 2 ^ 64 - threshold (2 ^ 64) bound := by
  have hset : acceptedValues bound =
      {v : UInt64 | v.toNat ∈ Finset.Ico (threshold (2 ^ 64) bound) (2 ^ 64)} := by
    ext v
    exact mem_acceptedValues hpos hlt
  rw [hset, ncard_values fun n hn => (Finset.mem_Ico.mp hn).2, Nat.card_Ico]

theorem ncard_remainder (hpos : 0 < bound) (hlt : bound < 2 ^ 64) (hr : r < bound) :
    Set.ncard {v ∈ acceptedValues bound | (v % UInt64.ofNat bound).toNat = r} =
      (2 ^ 64 - threshold (2 ^ 64) bound) / bound := by
  have hset : {v ∈ acceptedValues bound | (v % UInt64.ofNat bound).toNat = r} =
      {v : UInt64 | v.toNat ∈
        (Finset.Ico (threshold (2 ^ 64) bound) (2 ^ 64)).filter fun n => n % bound = r} := by
    ext v
    rw [Set.mem_ofPred_eq, Set.mem_ofPred_eq, Finset.mem_filter, mem_acceptedValues hpos hlt,
      toNat_mod_bound hlt]
  rw [hset, ncard_values, card_filter_mod hlt.le hr]
  intro n hn
  exact (Finset.mem_Ico.mp (Finset.mem_filter.mp hn).1).2

/-- The loop returns the first number that is not below the threshold. -/
theorem firstAccepted_eq_some :
    firstAccepted low fuel random = some v ↔
      ∃ n < fuel, splitmix64^[n] random = v ∧ low ≤ v ∧
        ∀ m < n, splitmix64^[m] random < low := by
  induction fuel generalizing random with
  | zero => simp [firstAccepted]
  | succ fuel ih =>
    rw [firstAccepted]
    split
    · rename_i hlow
      rw [ih]
      constructor
      · rintro ⟨n, hn, hv, haccepted, hbefore⟩
        refine ⟨n + 1, by omega, ?_, haccepted, ?_⟩
        · rwa [Function.iterate_succ_apply]
        · intro m hm
          cases m with
          | zero => rwa [Function.iterate_zero_apply]
          | succ m =>
            rw [Function.iterate_succ_apply]
            exact hbefore m (by omega)
      · rintro ⟨n, hn, hv, haccepted, hbefore⟩
        cases n with
        | zero =>
          rw [← hv, Function.iterate_zero_apply] at haccepted
          exact absurd hlow (UInt64.not_lt.mpr haccepted)
        | succ n =>
          rw [Function.iterate_succ_apply] at hv
          refine ⟨n, by omega, hv, haccepted, fun m hm => ?_⟩
          rw [← Function.iterate_succ_apply]
          exact hbefore (m + 1) (by omega)
    · rename_i hhigh
      constructor
      · rintro ⟨⟩
        refine ⟨0, by omega, Function.iterate_zero_apply _ _, UInt64.not_lt.mp hhigh, ?_⟩
        exact fun m hm => absurd hm (by omega)
      · rintro ⟨n, hn, hv, haccepted, hbefore⟩
        cases n with
        | zero => rw [← hv, Function.iterate_zero_apply]
        | succ n =>
          have hfirst := hbefore 0 (by omega)
          rw [Function.iterate_zero_apply] at hfirst
          exact absurd hfirst hhigh

theorem firstAccepted_of_mem (hfuel : 0 < fuel) (h : v ∈ acceptedValues bound) :
    firstAccepted (rejectionThreshold bound) fuel v = some v :=
  firstAccepted_eq_some.mpr
    ⟨0, hfuel, Function.iterate_zero_apply _ _, h, fun m hm => absurd hm (by omega)⟩

/-- The threshold and the numbers that it accepts. -/
structure IsUnbiased (bound : ℕ) : Prop where
  threshold_eq : (rejectionThreshold bound).toNat = (2 ^ 64 - bound) % bound
  threshold_lt : (rejectionThreshold bound).toNat < bound
  dvd_accepted : bound ∣ (acceptedValues bound).ncard
  ncard_remainder : ∀ r < bound,
    Set.ncard {v ∈ acceptedValues bound | (v % UInt64.ofNat bound).toNat = r} =
      (2 ^ 64 - (rejectionThreshold bound).toNat) / bound

theorem isUnbiased (hpos : 0 < bound) (hlt : bound < 2 ^ 64) : IsUnbiased bound where
  threshold_eq := toNat_rejectionThreshold hpos hlt
  threshold_lt := by
    rw [toNat_rejectionThreshold hpos hlt]
    exact threshold_lt hpos
  dvd_accepted := by
    rw [ncard_acceptedValues hpos hlt]
    exact dvd_sub_threshold hlt.le
  ncard_remainder r hr := by
    rw [toNat_rejectionThreshold hpos hlt]
    exact ncard_remainder hpos hlt hr

/-- Draws are in range, and among the accepted numbers as many give one result as another. -/
theorem draws_unbiased (hpos : 0 < bound) (hlt : bound < 2 ^ 64) :
    IsUnbiased bound ∧
      (∀ random selected, bounded random bound = some selected →
        selected < bound ∧ ∃ n, splitmix64^[n] random ∈ acceptedValues bound ∧
          (splitmix64^[n] random % UInt64.ofNat bound).toNat = selected ∧
          ∀ m < n, splitmix64^[m] random ∉ acceptedValues bound) ∧
      (∀ v ∈ acceptedValues bound, bounded v bound = some (v % UInt64.ofNat bound).toNat) ∧
      (∀ (s s' : ShuffleState) (selected : ℕ), s.bounded bound = some (selected, s') →
        selected < bound ∧ s'.randomState ∈ acceptedValues bound ∧
          (s'.randomState % UInt64.ofNat bound).toNat = selected) ∧
      ∀ s : ShuffleState, splitmix64 s.randomState ∈ acceptedValues bound →
        s.bounded bound = some ((splitmix64 s.randomState % UInt64.ofNat bound).toNat,
          { s with randomState := splitmix64 s.randomState }) := by
  have hrange : ∀ v : UInt64, (v % UInt64.ofNat bound).toNat < bound := by
    intro v
    rw [toNat_mod_bound hlt]
    exact Nat.mod_lt _ hpos
  refine ⟨isUnbiased hpos hlt, ?_, ?_, ?_, ?_⟩
  · intro random selected h
    obtain ⟨v, hv, rfl⟩ := Option.map_eq_some_iff.mp h
    obtain ⟨n, -, rfl, haccepted, hbefore⟩ := firstAccepted_eq_some.mp hv
    exact ⟨hrange _, n, haccepted, rfl, fun m hm => UInt64.not_le.mpr (hbefore m hm)⟩
  · intro v hv
    rw [bounded, firstAccepted_of_mem (by decide) hv, Option.map_some]
  · intro s s' selected h
    obtain ⟨v, hv, heq⟩ := Option.map_eq_some_iff.mp h
    cases heq
    obtain ⟨n, -, rfl, haccepted, -⟩ := firstAccepted_eq_some.mp hv
    exact ⟨hrange _, haccepted, rfl⟩
  · intro s hs
    rw [ShuffleState.bounded, firstAccepted_of_mem (by decide) hs, Option.map_some]

/-- For ten results the six numbers below 6 are drawn again. -/
theorem draws_unbiased_ten :
    (rejectionThreshold 10).toNat = 6 ∧ IsUnbiased 10 ∧ bounded 17 10 = some 7 := by
  obtain ⟨hunbiased, -, hbounded, -⟩ := @draws_unbiased 10 (by decide) (by decide)
  have hthreshold := hunbiased.threshold_eq
  exact ⟨hthreshold, hunbiased, hbounded 17 (UInt64.le_iff_toNat_le.mpr (by
    rw [hthreshold]
    decide))⟩

end Rload
