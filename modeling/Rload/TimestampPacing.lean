import Rload.LoadRun
import Rload.RequestEncoding
import Mathlib.Algebra.BigOperators.Intervals
import Mathlib.Algebra.Order.BigOperators.Group.Finset

/-!
# Pacing by timestamps

The pacer of timestamps puts the gap between two timestamps, divided by the speed, between the
slots of two calls. Here the scaling is exact, so that instants are rational numbers of
nanoseconds. A call that comes late waits for the gap all the same, and a gap that is too long for
a signed number of microseconds or, once scaled, for a duration or for the instants that are left
is not refused before the run.
-/

namespace Rload

inductive TimestampSource where
  | accessLog | requestFile
  deriving DecidableEq, Repr

def TimestampSource.invalid (message : String) : TimestampSource → RunError
  | .accessLog => .invalidAccessLog message
  | .requestFile => .invalidRequestFile message

/-- The loop over the requests. -/
def validateTimestampsFrom (source : TimestampSource) :
    Option ℤ → List ReplayRequest → Except RunError Unit
  | _, [] => .ok ()
  | previous, request :: requests =>
    match request.timestampMicros with
    | none =>
      .error (source.invalid
        "timestamp pacing requires a valid timestamp on every replayable line")
    | some timestamp =>
      if previous.any (timestamp < ·) then
        .error (source.invalid "timestamp pacing requires non-decreasing log timestamps")
      else validateTimestampsFrom source (some timestamp) requests

def validateTimestamps (requests : List ReplayRequest) (source : TimestampSource) :
    Except RunError Unit :=
  validateTimestampsFrom source none requests

def timestampsOf (requests : List ReplayRequest) : List ℤ :=
  requests.filterMap (·.timestampMicros)

theorem validateTimestampsFrom_cons {source : TimestampSource} {previous : Option ℤ}
    {request : ReplayRequest} {requests : List ReplayRequest}
    (h : validateTimestampsFrom source previous (request :: requests) = .ok ()) :
    ∃ timestamp, timestampsOf (request :: requests) = timestamp :: timestampsOf requests ∧
      (∀ earlier ∈ previous, earlier ≤ timestamp) ∧
      validateTimestampsFrom source (some timestamp) requests = .ok () := by
  rw [validateTimestampsFrom] at h
  cases htimestamp : request.timestampMicros with
  | none =>
    rw [htimestamp] at h
    cases h
  | some timestamp =>
    simp only [htimestamp] at h
    split at h
    · cases h
    · rename_i horder
      refine ⟨timestamp, List.filterMap_cons_some htimestamp, ?_, h⟩
      intro earlier hearlier
      obtain rfl := Option.mem_def.mp hearlier
      simpa using horder

theorem timestamps_of_validateFrom {source : TimestampSource} {previous : Option ℤ}
    {requests : List ReplayRequest} (h : validateTimestampsFrom source previous requests = .ok ()) :
    (timestampsOf requests).Pairwise (· ≤ ·) ∧
      (∀ earlier ∈ previous, ∀ t ∈ timestampsOf requests, earlier ≤ t) ∧
      (timestampsOf requests).length = requests.length := by
  induction requests generalizing previous with
  | nil => exact ⟨.nil, fun _ _ t ht => absurd ht List.not_mem_nil, rfl⟩
  | cons request requests ih =>
    obtain ⟨timestamp, htimestamps, hprevious, hrest⟩ := validateTimestampsFrom_cons h
    obtain ⟨hsorted, hlater, hlength⟩ := ih hrest
    rw [htimestamps, List.length_cons, List.length_cons, hlength]
    refine ⟨hsorted.cons (hlater timestamp rfl), ?_, rfl⟩
    intro earlier hearlier t ht
    have hle := hprevious earlier hearlier
    obtain rfl | ht := List.mem_cons.mp ht
    · exact hle
    · exact hle.trans (hlater timestamp rfl t ht)

/-- The timestamps of requests that are accepted do not decrease. -/
theorem timestamps_sorted {source : TimestampSource} {requests : List ReplayRequest}
    (h : validateTimestamps requests source = .ok ()) :
    (timestampsOf requests).Pairwise (· ≤ ·) :=
  (timestamps_of_validateFrom h).1

theorem speed_pos {options : ReplayOptions} {rounds : Option ℕ}
    (h : validateReplayOptions options rounds = .ok ()) : 0 < options.speed := by
  unfold validateReplayOptions at h
  iterate 7
    split at h
    · cases h
  split at h
  · cases h
  · rename_i hspeed
    exact not_le.mp hspeed

/-- The state of the pacer, with instants and durations of any kind. -/
structure ScaledPacer (T : Type) where
  previousMicros : Option ℤ
  next : T

/-- `TimestampPacer::reserve` with a scaling of the gap that may panic. The sum panics where it is
no instant. -/
def ScaledPacer.reserve {T : Type} [LinearOrder T] [Add T] [NatCast T] (scale : ℤ → Option T)
    (p : ScaledPacer T) (timestampMicros : ℤ) (now : T) : Option (T × ScaledPacer T) :=
  let gap := TimestampPacer.gap p.previousMicros timestampMicros
  if 2 ^ 63 ≤ gap then none
  else (scale gap).bind fun duration =>
    let next := max p.next now + duration
    if next < instantLimit then some (next, ⟨some timestampMicros, next⟩) else none

namespace TimestampPacer
open FloatingSeconds

/-- The scaling of the code. -/
def scaleF64 (speed : ℚ) (gap : ℤ) : Option ℕ :=
  fromSecsF64 (divF64 (divF64 (if gap = 0 then 0 else toF64 gap) 1000000) speed)

theorem reserve_eq_scaled (p : TimestampPacer) (timestampMicros : ℤ) (now : ℕ) :
    p.reserve timestampMicros now =
      (ScaledPacer.reserve (scaleF64 p.speed) ⟨p.previousMicros, p.next⟩ timestampMicros now).map
        fun (slot, state) => (slot, ⟨p.speed, state.previousMicros, state.next⟩) := by
  rw [reserve, pause, ScaledPacer.reserve, scaleF64]
  split
  · rfl
  · cases fromSecsF64 _ with
    | none => rfl
    | some duration =>
      rw [Option.bind_some, Option.bind_some, addDuration, Nat.cast_id]
      dsimp only
      split
      · rfl
      · rfl

/-- The exact number of nanoseconds. -/
def scaled (speed : ℚ) (gap : ℤ) : ℚ := gap / 10 ^ 6 / speed * 10 ^ 9

/-- The exact scaling, which panics where the result is negative or longer than a duration. -/
def scaleExactly (speed : ℚ) (gap : ℤ) : Option ℚ :=
  if 0 ≤ scaled speed gap ∧ scaled speed gap ≤ maxDuration then some (scaled speed gap) else none

/-- The scaled gap is a duration and the gap is a signed number. -/
def Fits (speed : ℚ) (gap : ℤ) : Prop := gap < 2 ^ 63 ∧ scaled speed gap ≤ maxDuration

/-- The gap fits and the slot that it leads to is an instant. -/
def Room (speed : ℚ) (gap : ℤ) (slot : ℚ) : Prop :=
  Fits speed gap ∧ slot + scaled speed gap < instantLimit

theorem scaled_zero (speed : ℚ) : scaled speed 0 = 0 := by simp [scaled]

theorem scaled_pos_iff {speed : ℚ} (hspeed : 0 < speed) {gap : ℤ} :
    0 < scaled speed gap ↔ 0 < gap := by
  rw [scaled, mul_pos_iff_of_pos_right (by norm_num), div_pos_iff_of_pos_right hspeed,
    div_pos_iff_of_pos_right (by norm_num), Int.cast_pos]

theorem scaled_nonneg {speed : ℚ} (hspeed : 0 < speed) {gap : ℤ} (h : 0 ≤ gap) :
    0 ≤ scaled speed gap := by
  have hgap : (0 : ℚ) ≤ gap := by exact_mod_cast h
  unfold scaled
  positivity

theorem fits_zero (speed : ℚ) : Fits speed 0 := by
  refine ⟨by norm_num, ?_⟩
  rw [scaled_zero]
  exact Nat.cast_nonneg maxDuration

theorem gap_nonneg (previousMicros : Option ℤ) (timestampMicros : ℤ) :
    0 ≤ gap previousMicros timestampMicros := by
  cases previousMicros with
  | none => exact le_rfl
  | some previous =>
    rw [gap]
    split
    · omega
    · exact le_rfl

/-- A call of the exact pacer. -/
theorem reserve_exactly {speed : ℚ} (hspeed : 0 < speed) (p : ScaledPacer ℚ)
    (timestampMicros : ℤ) (now : ℚ) :
    (Room speed (gap p.previousMicros timestampMicros) (max p.next now) ∧
      p.reserve (scaleExactly speed) timestampMicros now =
        some (max p.next now + scaled speed (gap p.previousMicros timestampMicros),
          ⟨some timestampMicros,
            max p.next now + scaled speed (gap p.previousMicros timestampMicros)⟩)) ∨
    (¬ Room speed (gap p.previousMicros timestampMicros) (max p.next now) ∧
      p.reserve (scaleExactly speed) timestampMicros now = none) := by
  have hnonneg := scaled_nonneg hspeed (gap_nonneg p.previousMicros timestampMicros)
  rw [ScaledPacer.reserve, scaleExactly]
  generalize gap p.previousMicros timestampMicros = gap at hnonneg ⊢
  by_cases hlong : 2 ^ 63 ≤ gap
  · exact .inr ⟨fun h => (h.1.1.trans_le hlong).false, if_pos hlong⟩
  rw [if_neg hlong]
  by_cases hfits : scaled speed gap ≤ maxDuration
  · rw [if_pos ⟨hnonneg, hfits⟩]
    by_cases hroom : max p.next now + scaled speed gap < instantLimit
    · exact .inl ⟨⟨⟨not_le.mp hlong, hfits⟩, hroom⟩, if_pos hroom⟩
    · exact .inr ⟨fun h => hroom h.2, if_neg hroom⟩
  · refine .inr ⟨fun h => hfits h.1.2, ?_⟩
    rw [if_neg fun h => hfits h.2]
    rfl

/-- A call that has returned: the slot that was given last before it is `pending`. -/
structure Reservation where
  index : ℕ
  now : ℚ
  pending : ℚ
  slot : ℚ
  deriving DecidableEq

/-- The calls at the given times, from the one with the given index on, up to one that panics.
The timestamps of the pass are used in turn. -/
def reservations (speed : ℚ) (pass : List ℤ) : ScaledPacer ℚ → ℕ → List ℚ → List Reservation
  | _, _, [] => []
  | p, index, now :: nows =>
    match pass[index % pass.length]?.bind fun timestamp =>
        p.reserve (scaleExactly speed) timestamp now with
    | none => []
    | some (slot, p') =>
      ⟨index, now, p.next, slot⟩ :: reservations speed pass p' (index + 1) nows

/-- The gap before the call with the given index: there is none before the first call and where
a new pass begins. -/
def passGap (pass : List ℤ) : ℕ → ℤ
  | 0 => 0
  | index + 1 =>
    if (index + 1) % pass.length = 0 then 0
    else pass.getD ((index + 1) % pass.length) 0 - pass.getD (index % pass.length) 0

/-- The timestamp before the call with the given index. -/
def timestampBefore (pass : List ℤ) : ℕ → Option ℤ
  | 0 => none
  | index + 1 => pass[index % pass.length]?

theorem succ_mod_of_ne {length index : ℕ} (hlength : 0 < length)
    (h : (index + 1) % length ≠ 0) : (index + 1) % length = index % length + 1 := by
  rw [← Nat.mod_add_mod] at h ⊢
  obtain hlast | hmore := Nat.eq_or_lt_of_le (Nat.succ_le_of_lt (Nat.mod_lt index hlength))
  · rw [Nat.succ_eq_add_one] at hlast
    rw [hlast, Nat.mod_self] at h
    exact absurd rfl h
  · exact Nat.mod_eq_of_lt hmore

theorem gap_eq_passGap {pass : List ℤ} (hsorted : pass.Pairwise (· ≤ ·)) {index : ℕ}
    {timestampMicros : ℤ} (h : pass[index % pass.length]? = some timestampMicros) :
    gap (timestampBefore pass index) timestampMicros = passGap pass index := by
  cases index with
  | zero => rfl
  | succ index =>
    have hlength : 0 < pass.length :=
      Nat.pos_of_ne_zero fun hzero => by
        rw [List.length_eq_zero_iff.mp hzero] at h
        cases h
    have hlt : index % pass.length < pass.length := Nat.mod_lt _ hlength
    obtain ⟨hlt', rfl⟩ := List.getElem?_eq_some_iff.mp h
    rw [timestampBefore, List.getElem?_eq_getElem hlt, passGap, gap, List.getD_eq_getElem?_getD,
      List.getD_eq_getElem?_getD, List.getElem?_eq_getElem hlt, List.getElem?_eq_getElem hlt',
      Option.getD_some, Option.getD_some]
    have hmono : ∀ {i j : ℕ} (hi : i < pass.length) (hj : j < pass.length), i ≤ j →
        pass[i] ≤ pass[j] := by
      intro i j hi hj hij
      obtain rfl | hij := Nat.eq_or_lt_of_le hij
      · exact le_rfl
      · exact List.pairwise_iff_getElem.mp hsorted i j hi hj hij
    by_cases hwrap : (index + 1) % pass.length = 0
    · -- the first timestamp is not after the last one
      have hfirst := hmono hlt' hlt (by omega)
      rw [if_pos hwrap]
      split
      · omega
      · rfl
    · have hnext := succ_mod_of_ne hlength hwrap
      have hle := hmono hlt hlt' (by omega)
      rw [if_neg hwrap, if_pos hle]

theorem passGap_nonneg {pass : List ℤ} (hsorted : pass.Pairwise (· ≤ ·)) (index : ℕ) :
    0 ≤ passGap pass index := by
  cases htimestamp : pass[index % pass.length]? with
  | some timestampMicros =>
    rw [← gap_eq_passGap hsorted htimestamp]
    exact gap_nonneg _ _
  | none =>
    have hlength : pass.length = 0 := by
      by_contra hne
      exact absurd (List.getElem?_eq_none_iff.mp htimestamp)
        (Nat.not_le.mpr (Nat.mod_lt _ (Nat.pos_of_ne_zero hne)))
    obtain rfl := List.length_eq_zero_iff.mp hlength
    cases index <;> simp [passGap]

section Runs

variable {speed : ℚ} (hspeed : 0 < speed) {pass : List ℤ} (hsorted : pass.Pairwise (· ≤ ·))
include hspeed hsorted

/-- One call of a run: it returns a slot or panics. -/
theorem reservations_cons (hpass : pass ≠ []) {p : ScaledPacer ℚ} {index : ℕ}
    (hp : p.previousMicros = timestampBefore pass index) (now : ℚ) (nows : List ℚ) :
    (Room speed (passGap pass index) (max p.next now) ∧ ∃ p' : ScaledPacer ℚ,
      p'.previousMicros = timestampBefore pass (index + 1) ∧
      p'.next = max p.next now + scaled speed (passGap pass index) ∧
      reservations speed pass p index (now :: nows) =
        ⟨index, now, p.next, p'.next⟩ :: reservations speed pass p' (index + 1) nows) ∨
    (¬ Room speed (passGap pass index) (max p.next now) ∧
      reservations speed pass p index (now :: nows) = []) := by
  have hlt : index % pass.length < pass.length :=
    Nat.mod_lt _ (List.length_pos_of_ne_nil hpass)
  have htimestamp := List.getElem?_eq_getElem hlt
  rw [reservations, htimestamp, Option.bind_some, ← gap_eq_passGap hsorted htimestamp, ← hp]
  obtain ⟨hroom, hreserve⟩ | ⟨hroom, hreserve⟩ :=
    reserve_exactly hspeed p pass[index % pass.length] now
  · rw [hreserve]
    exact .inl ⟨hroom, ⟨some pass[index % pass.length], _⟩, htimestamp.symm, rfl, rfl⟩
  · rw [hreserve]
    exact .inr ⟨hroom, rfl⟩

/-- What the code gives: the gap comes on top of the call or the slot before, whatever is
later. -/
theorem reservations_given {p : ScaledPacer ℚ} {index : ℕ}
    (hp : p.previousMicros = timestampBefore pass index) (nows : List ℚ) :
    (∀ b ∈ reservations speed pass p index nows,
      b.slot = max b.pending b.now + scaled speed (passGap pass b.index)) ∧
    (reservations speed pass p index nows).IsChain (fun a b => b.pending = a.slot) ∧
    ∀ b ∈ (reservations speed pass p index nows).head?, b.pending = p.next := by
  induction nows generalizing p index with
  | nil => simp [reservations]
  | cons now nows ih =>
    obtain rfl | hpass := eq_or_ne pass []
    · simp [reservations]
    · obtain ⟨-, p', hp', hnext, hrest⟩ | ⟨-, hrest⟩ :=
        reservations_cons hspeed hsorted hpass hp now nows
      · obtain ⟨hslots, hchain, hhead⟩ := ih hp'
        rw [hrest, List.forall_mem_cons, List.isChain_cons]
        refine ⟨⟨hnext, hslots⟩, ⟨hhead, hchain⟩, ?_⟩
        intro b hb
        cases hb
        rfl
      · simp [hrest]

end Runs

/-- The earliest slot that is allowed is the one given where there is no gap or the call is not
late. -/
theorem eq_earliest_iff {speed : ℚ} (hspeed : 0 < speed) {gap : ℤ} (hgap : 0 ≤ gap)
    (pending now : ℚ) :
    max pending now + scaled speed gap = max now (pending + scaled speed gap) ↔
      gap = 0 ∨ now ≤ pending := by
  have hnonneg := scaled_nonneg hspeed hgap
  constructor
  · intro h
    by_contra hlate
    obtain ⟨hne, hnow⟩ := not_or.mp hlate
    have hpos : 0 < scaled speed gap := (scaled_pos_iff hspeed).mpr (by omega)
    rw [max_eq_right (not_le.mp hnow).le] at h
    obtain hmax | hmax := max_cases now (pending + scaled speed gap) <;> linarith
  · rintro (rfl | hnow)
    · rw [scaled_zero, add_zero, add_zero, max_comm]
    · rw [max_eq_left hnow, max_eq_right (by linarith)]

/-- What a later reservation needs is a condition on it alone. -/
theorem isChain_iff_forall_tail {α : Type} {R S : α → α → Prop} {Q : α → Prop} {l : List α}
    (h : l.IsChain R) (hstep : ∀ a b, b ∈ l → R a b → (S a b ↔ Q b)) :
    l.IsChain S ↔ ∀ b ∈ l.tail, Q b := by
  induction l with
  | nil => simp
  | cons a l ih =>
    cases l with
    | nil => simp
    | cons b l =>
      obtain ⟨hab, hrest⟩ := List.isChain_cons_cons.mp h
      rw [List.isChain_cons_cons, List.tail_cons, List.forall_mem_cons,
        ih hrest fun a b hb => hstep a b (List.mem_cons_of_mem _ hb),
        hstep a b (by simp) hab]
      rfl

/-- Each slot after the first is the earliest that the call and the gap after the slot before
allow, exactly when no call after which there is a gap is later than the slot before. -/
theorem earliest_iff {pass : List ℤ} (hsorted : pass.Pairwise (· ≤ ·)) {speed : ℚ}
    (hspeed : 0 < speed) (started : ℚ) (nows : List ℚ) :
    ((reservations speed pass ⟨none, started⟩ 0 nows).IsChain fun a b =>
        b.slot = max b.now (a.slot + scaled speed (passGap pass b.index))) ↔
      ∀ b ∈ (reservations speed pass ⟨none, started⟩ 0 nows).tail,
        passGap pass b.index = 0 ∨ b.now ≤ b.pending := by
  have hp : (⟨none, started⟩ : ScaledPacer ℚ).previousMicros = timestampBefore pass 0 := rfl
  obtain ⟨hslots, hchain, -⟩ := reservations_given hspeed hsorted hp nows
  refine isChain_iff_forall_tail hchain ?_
  intro a b hb hpending
  rw [hslots b hb, ← hpending]
  exact eq_earliest_iff hspeed (passGap_nonneg hsorted b.index) b.pending b.now

theorem earliest_iff_sample :
    (reservations 2 [0, 1000000] ⟨none, 0⟩ 0 [0, 0, 3]).IsChain (fun a b =>
        b.slot = max b.now (a.slot + scaled 2 (passGap [0, 1000000] b.index))) ↔
      ∀ b ∈ (reservations 2 [0, 1000000] ⟨none, 0⟩ 0 [0, 0, 3]).tail,
        passGap [0, 1000000] b.index = 0 ∨ b.now ≤ b.pending :=
  earliest_iff (by decide) two_pos 0 [0, 0, 3]

/-- With a second between the timestamps the slot of a call after five seconds is that of the
sixth, although it was due after one second. -/
theorem late_call_delayed :
    ¬ (reservations 1 [0, 1000000] ⟨none, 0⟩ 0 [0, 5000000000]).IsChain fun a b =>
      b.slot = max b.now (a.slot + scaled 1 (passGap [0, 1000000] b.index)) := by
  have hrun : reservations 1 [0, 1000000] ⟨none, 0⟩ 0 [0, 5000000000] =
      [⟨0, 0, 0, 0⟩, ⟨1, 5000000000, 0, 6000000000⟩] := by
    decide +kernel
  rw [hrun, List.isChain_cons_cons, not_and_or]
  refine .inl ?_
  decide +kernel

/-- The scaled gaps of the calls from `first` on, without the one of `past`. -/
def awaited (speed : ℚ) (pass : List ℤ) (first past : ℕ) : ℚ :=
  ∑ index ∈ Finset.Ico first past, scaled speed (passGap pass index)

/-- The gaps of the calls from `first` on fit, and the slot that is pending and each call leave
time for the gaps that are still to come. -/
structure LeavesTime (speed : ℚ) (pass : List ℤ) (first : ℕ) (pending : ℚ) (nows : List ℚ) :
    Prop where
  fits : ∀ count < nows.length, Fits speed (passGap pass (first + count))
  pending_lt : nows ≠ [] →
    pending + awaited speed pass first (first + nows.length) < instantLimit
  now_lt : ∀ count now, nows[count]? = some now →
    now + awaited speed pass (first + count) (first + nows.length) < instantLimit

theorem awaited_succ (speed : ℚ) (pass : List ℤ) (first count : ℕ) :
    awaited speed pass first (first + (count + 1)) =
      scaled speed (passGap pass first) +
        awaited speed pass (first + 1) (first + 1 + count) := by
  rw [Nat.add_right_comm]
  exact Finset.sum_eq_sum_Ico_succ_bot (by omega) _

theorem awaited_nonneg {speed : ℚ} (hspeed : 0 < speed) {pass : List ℤ}
    (hsorted : pass.Pairwise (· ≤ ·)) (first past : ℕ) : 0 ≤ awaited speed pass first past :=
  Finset.sum_nonneg fun index _ => scaled_nonneg hspeed (passGap_nonneg hsorted index)

/-- There is time for calls if there is room for the first one, and time for the others after its
slot. -/
theorem leavesTime_cons_iff {speed : ℚ} (hspeed : 0 < speed) {pass : List ℤ}
    (hsorted : pass.Pairwise (· ≤ ·)) (first : ℕ) (pending now : ℚ) (nows : List ℚ) :
    LeavesTime speed pass first pending (now :: nows) ↔
      Room speed (passGap pass first) (max pending now) ∧
        LeavesTime speed pass (first + 1)
          (max pending now + scaled speed (passGap pass first)) nows := by
  have hsum := awaited_succ speed pass first nows.length
  have hrest := awaited_nonneg hspeed hsorted (first + 1) (first + 1 + nows.length)
  have hlast : first + (now :: nows).length = first + 1 + nows.length := by
    rw [List.length_cons, Nat.add_right_comm]
    rfl
  constructor
  · rintro ⟨hfits, hpending, hnows⟩
    have hslot : max pending now + awaited speed pass first (first + (nows.length + 1)) <
        instantLimit := by
      rw [max_add]
      exact max_lt (hpending (List.cons_ne_nil _ _)) (hnows 0 now rfl)
    rw [hsum] at hslot
    refine ⟨⟨hfits 0 (Nat.succ_pos _), by linarith⟩, ?_, fun _ => by linarith, ?_⟩
    · intro count hcount
      have hfit := hfits (count + 1) (Nat.succ_lt_succ hcount)
      rwa [Nat.add_assoc, Nat.add_comm 1 count]
    · intro count time htime
      have hlt := hnows (count + 1) time htime
      rwa [hlast, ← Nat.add_assoc, Nat.add_right_comm] at hlt
  · rintro ⟨⟨hfit, hslot⟩, hfits, hpending, hnows⟩
    have hall : max pending now + awaited speed pass first (first + (nows.length + 1)) <
        instantLimit := by
      rw [hsum]
      cases nows with
      | nil => simpa [awaited] using hslot
      | cons later nows =>
        have hlt := hpending (List.cons_ne_nil _ _)
        linarith
    rw [max_add, max_lt_iff] at hall
    refine ⟨?_, fun _ => hall.1, ?_⟩
    · intro count hcount
      cases count with
      | zero => exact hfit
      | succ count =>
        have hlater := hfits count (Nat.lt_of_succ_lt_succ hcount)
        rwa [Nat.add_assoc, Nat.add_comm 1 count] at hlater
    · intro count time htime
      cases count with
      | zero =>
        obtain rfl : now = time := Option.some.inj htime
        exact hall.2
      | succ count =>
        have hlt := hnows count time htime
        rwa [hlast, ← Nat.add_assoc, Nat.add_right_comm]

/-- All calls return exactly when there is time for them. -/
theorem length_reservations_iff {speed : ℚ} (hspeed : 0 < speed) {pass : List ℤ}
    (hsorted : pass.Pairwise (· ≤ ·)) (hpass : pass ≠ []) {p : ScaledPacer ℚ} {index : ℕ}
    (hp : p.previousMicros = timestampBefore pass index) (nows : List ℚ) :
    (reservations speed pass p index nows).length = nows.length ↔
      LeavesTime speed pass index p.next nows := by
  induction nows generalizing p index with
  | nil => exact iff_of_true rfl ⟨nofun, fun h => absurd rfl h, nofun⟩
  | cons now nows ih =>
    rw [leavesTime_cons_iff hspeed hsorted]
    obtain ⟨hroom, p', hp', hnext, hrest⟩ | ⟨hroom, hrest⟩ :=
      reservations_cons hspeed hsorted hpass hp now nows
    · rw [hrest, List.length_cons, List.length_cons, Nat.succ_inj, ih hp', hnext]
      exact (and_iff_right hroom).symm
    · rw [hrest]
      exact iff_of_false (Nat.succ_ne_zero _).symm fun h => hroom h.1

/-- The gaps of a cyclic run are those between neighbours, and none. -/
theorem forall_fits_iff {speed : ℚ} {pass : List ℤ} (hpass : pass ≠ []) :
    (∀ index, Fits speed (passGap pass index)) ↔
      pass.IsChain fun t t' => Fits speed (t' - t) := by
  have hlength := List.length_pos_of_ne_nil hpass
  rw [List.isChain_iff_getElem]
  constructor
  · intro h index hindex
    have hgap := h (index + 1)
    rwa [passGap, Nat.mod_eq_of_lt hindex, Nat.mod_eq_of_lt (Nat.lt_of_succ_lt hindex),
      if_neg (Nat.succ_ne_zero index), List.getD_eq_getElem?_getD, List.getD_eq_getElem?_getD,
      List.getElem?_eq_getElem hindex, List.getElem?_eq_getElem (Nat.lt_of_succ_lt hindex)] at hgap
  · intro h index
    cases index with
    | zero => exact fits_zero speed
    | succ index =>
      rw [passGap]
      split
      · exact fits_zero speed
      · rename_i hwrap
        have hnext := succ_mod_of_ne hlength hwrap
        have hlt : index % pass.length + 1 < pass.length := by
          rw [← hnext]
          exact Nat.mod_lt _ hlength
        rw [hnext, List.getD_eq_getElem?_getD, List.getD_eq_getElem?_getD,
          List.getElem?_eq_getElem hlt, List.getElem?_eq_getElem (Nat.lt_of_succ_lt hlt)]
        exact h _ hlt

/-- All calls of a run return exactly when there is time for them. The gaps of long runs fit when
those between neighbours do. -/
theorem forall_returns_iff {requests : List ReplayRequest} {source : TimestampSource}
    {options : ReplayOptions} {rounds : Option ℕ}
    (hrequests : validateTimestamps requests source = .ok ())
    (hoptions : validateReplayOptions options rounds = .ok ()) (hne : requests ≠ []) :
    (∀ (started : ℚ) (nows : List ℚ),
      (reservations options.speed (timestampsOf requests) ⟨none, started⟩ 0 nows).length =
        nows.length ↔ LeavesTime options.speed (timestampsOf requests) 0 started nows) ∧
    ((∀ index, Fits options.speed (passGap (timestampsOf requests) index)) ↔
      (timestampsOf requests).IsChain fun t t' => Fits options.speed (t' - t)) := by
  have hpass : timestampsOf requests ≠ [] := by
    rw [← List.length_pos_iff_ne_nil, (timestamps_of_validateFrom hrequests).2.2]
    exact List.length_pos_of_ne_nil hne
  refine ⟨fun started nows => ?_, forall_fits_iff hpass⟩
  have hp : (⟨none, started⟩ : ScaledPacer ℚ).previousMicros =
    timestampBefore (timestampsOf requests) 0 := rfl
  exact length_reservations_iff (speed_pos hoptions) (timestamps_sorted hrequests) hpass hp nows

/-- Requests with the given timestamps. -/
def recordedAt (timestamps : List ℤ) : List ReplayRequest :=
  timestamps.map fun timestamp => ⟨.get, ['/'], none, some timestamp⟩

def atSpeed (speed : ℚ) : ReplayOptions := { timestamps := true, speed := speed }

theorem forall_returns_iff_sample :
    ((reservations (atSpeed 2).speed (timestampsOf (recordedAt [0, 1000000])) ⟨none, 0⟩ 0
        [0, 0, 3]).length = 3 ↔
      LeavesTime (atSpeed 2).speed (timestampsOf (recordedAt [0, 1000000])) 0 0 [0, 0, 3]) ∧
    ((∀ index, Fits (atSpeed 2).speed (passGap (timestampsOf (recordedAt [0, 1000000])) index)) ↔
      (timestampsOf (recordedAt [0, 1000000])).IsChain fun t t' =>
        Fits (atSpeed 2).speed (t' - t)) := by
  have hrequests : validateTimestamps (recordedAt [0, 1000000]) .requestFile = .ok () := rfl
  have hoptions : validateReplayOptions (atSpeed 2) none = .ok () := by decide +kernel
  obtain ⟨hreturns, hgaps⟩ := forall_returns_iff hrequests hoptions (List.cons_ne_nil _ _)
  exact ⟨hreturns 0 [0, 0, 3], hgaps⟩

/-- The gap between the timestamps is no signed number, the scaled second is no duration, or it is
a duration that leads to no instant. -/
theorem second_call_panics :
    (validateTimestamps (recordedAt [-1, 2 ^ 63 - 1]) .requestFile = .ok () ∧
      validateReplayOptions (atSpeed 1) none = .ok () ∧
      (reservations 1 (timestampsOf (recordedAt [-1, 2 ^ 63 - 1])) ⟨none, 0⟩ 0
        [0, 0]).length = 1) ∧
    validateTimestamps (recordedAt [0, 1000000]) .requestFile = .ok () ∧
      (validateReplayOptions (atSpeed (1 / 10 ^ 20)) none = .ok () ∧
        (reservations (1 / 10 ^ 20) (timestampsOf (recordedAt [0, 1000000])) ⟨none, 0⟩ 0
          [0, 0]).length = 1) ∧
      validateReplayOptions (atSpeed (1 / 10 ^ 19)) none = .ok () ∧
        (reservations (1 / 10 ^ 19) (timestampsOf (recordedAt [0, 1000000])) ⟨none, 0⟩ 0
          [0, 0]).length = 1 := by
  decide +kernel

end TimestampPacer

end Rload
