import Rload.LoadRun
import Rload.RatePacing
import Rload.StagePacing

/-!
# Additions of instants

An instant has its seconds in a signed word, a duration in an unsigned one. The checks of a
config and of its stages bound durations, so that an addition to an instant can still overflow,
which panics.
-/

namespace Rload
open FloatingSeconds

/-- The deadline of `connection_limits`. -/
def loadDeadline (config : RunConfig) (started : ℕ) : Option (Option ℕ) :=
  match config.limit with
  | .requests _ => some none
  | .duration duration => (addDuration started duration).map some

theorem loadDeadline_eq {config : RunConfig} {started : ℕ} {deadline : Option ℕ}
    (h : loadDeadline config started = some deadline) :
    (connectionLimits config started).2.2 = deadline := by
  rw [loadDeadline] at h
  rw [connectionLimits]
  cases hlimit : config.limit with
  | requests n =>
    rw [hlimit] at h
    exact Option.some.inj h
  | duration duration =>
    rw [hlimit] at h
    obtain ⟨sum, hsum, rfl⟩ := Option.map_eq_some_iff.mp h
    rw [addDuration] at hsum
    split at hsum
    · exact hsum
    · cases hsum

theorem slotAfter_eq {rate : ℕ} (hrate : 1 ≤ rate) (scheduled : ℕ) :
    slotAfter rate scheduled = addDuration scheduled (slotInterval rate) := by
  rw [slotAfter, fromSecsF64_slotInterval hrate]
  rfl

namespace StagePacer

/-- The cumulative durations. -/
def boundariesIn : ℕ → List ReplayStage → Option (List (ℕ × ℕ))
  | _, [] => some []
  | boundary, stage :: stages =>
    if maxDuration < boundary + stage.duration then none
    else (boundariesIn (boundary + stage.duration) stages).map
      ((boundary + stage.duration, stage.rate) :: ·)

def newIn (stages : List ReplayStage) : Option StagePacer :=
  (boundariesIn 0 stages).map fun stages => ⟨stages, none, none⟩

/-- The slots for calls at the given times. -/
def slotsIn : StagePacer → List ℕ → Option (List ℕ)
  | _, [] => some []
  | p, now :: nows => (p.reserveIn now).bind fun (slot, p) => (p.slotsIn nows).map (slot :: ·)

/-- The end of the stage that a slot is in, if it is in one, and the slot an interval later are
instants. -/
def RoomAt (stages : List (ℕ × ℕ)) (started slot : ℕ) : Prop :=
  match stages.find? fun (boundary, _) => slot - started < boundary with
  | some (boundary, rate) =>
    started + boundary < instantLimit ∧ slot + slotInterval rate < instantLimit
  | none => slot + slotInterval ((stages.getLast?.map Prod.snd).getD 0) < instantLimit

/-- The clock and the slot that is pending leave room for a call. -/
def Room (p : StagePacer) (now : ℕ) : Prop :=
  RoomAt p.stages (p.started.getD now) (max (p.next.getD now) now)

/-- There is room for each of the calls at the given times. -/
def LeavesRoom : StagePacer → List ℕ → Prop
  | _, [] => True
  | p, now :: nows => p.Room now ∧ LeavesRoom (p.reserve now).2 nows

/-- The rates of a pacer whose stages are valid. -/
def RatesPositive (p : StagePacer) : Prop := p.stages ≠ [] ∧ ∀ stage ∈ p.stages, 1 ≤ stage.2

variable {p : StagePacer} {now : ℕ}

theorem RatesPositive.last (h : p.RatesPositive) :
    1 ≤ (p.stages.getLast?.map Prod.snd).getD 0 := by
  obtain ⟨hne, hrates⟩ := h
  rw [List.getLast?_eq_some_getLast hne]
  exact hrates _ (List.getLast_mem hne)

theorem RatesPositive.reserve (h : p.RatesPositive) (now : ℕ) :
    (p.reserve now).2.RatesPositive := by
  rw [reserve_eq]
  exact h

theorem reserveIn_of_room (h : p.RatesPositive) (hroom : p.Room now) :
    p.reserveIn now = some (p.reserve now) := by
  unfold Room RoomAt at hroom
  unfold reserveIn
  rw [reserve_eq, after]
  split at hroom
  · rename_i boundary rate hfind
    obtain ⟨hboundary, hslot⟩ := hroom
    have hrate := h.2 _ (List.mem_of_find?_eq_some hfind)
    simp only [hfind, addDuration_of_lt hboundary, slotAfter_eq hrate, addDuration_of_lt hslot]
    rfl
  · rename_i hfind
    simp only [hfind, slotAfter_eq h.last, addDuration_of_lt hroom]
    rfl

theorem reserveIn_of_not_room (h : p.RatesPositive) (hroom : ¬ p.Room now) :
    p.reserveIn now = none := by
  unfold Room RoomAt at hroom
  unfold reserveIn
  split at hroom
  · rename_i boundary rate hfind
    have hrate := h.2 _ (List.mem_of_find?_eq_some hfind)
    simp only [hfind, slotAfter_eq hrate]
    by_cases hboundary : p.started.getD now + boundary < instantLimit
    · have hslot : ¬ max (p.next.getD now) now + slotInterval rate < instantLimit :=
        fun hslot => hroom ⟨hboundary, hslot⟩
      rw [addDuration_of_lt hboundary, addDuration_of_le (Nat.le_of_not_lt hslot)]
      rfl
    · rw [addDuration_of_le (Nat.le_of_not_lt hboundary)]
      rfl
  · rename_i hfind
    simp only [hfind, slotAfter_eq h.last, addDuration_of_le (Nat.le_of_not_lt hroom)]
    rfl

/-- With room for the calls the slots are those of unbounded instants. -/
theorem slotsIn_of_leavesRoom {nows : List ℕ} (h : p.RatesPositive) (hroom : p.LeavesRoom nows) :
    p.slotsIn nows = some (p.slots nows) := by
  induction nows generalizing p with
  | nil => rfl
  | cons now nows ih =>
    obtain ⟨hnow, hlater⟩ := hroom
    rw [slotsIn, reserveIn_of_room h hnow]
    exact congrArg (Option.map ((p.reserve now).1 :: ·)) (ih (h.reserve now) hlater)

theorem leavesRoom_of_slotsIn {nows slots : List ℕ} (h : p.RatesPositive)
    (hslots : p.slotsIn nows = some slots) : p.LeavesRoom nows := by
  induction nows generalizing p slots with
  | nil => trivial
  | cons now nows ih =>
    obtain ⟨⟨slot, p'⟩, hreserve, hrest⟩ := Option.bind_eq_some_iff.mp hslots
    obtain ⟨rest, hrest, -⟩ := Option.map_eq_some_iff.mp hrest
    by_cases hroom : p.Room now
    · rw [reserveIn_of_room h hroom] at hreserve
      have hp' : (p.reserve now).2 = p' := congrArg Prod.snd (Option.some.inj hreserve)
      exact ⟨hroom, ih (h.reserve now) (hp' ▸ hrest)⟩
    · rw [reserveIn_of_not_room h hroom] at hreserve
      cases hreserve

theorem le_of_mem_boundaries {base : ℕ} {stages : List ReplayStage} {stage : ℕ × ℕ}
    (h : stage ∈ boundaries base stages) : stage.1 ≤ base + lasting stages := by
  induction stages generalizing base with
  | nil => cases h
  | cons s stages ih =>
    have hsum : lasting (s :: stages) = s.duration + lasting stages := List.sum_cons
    rw [hsum]
    obtain rfl | h := List.mem_cons.mp h
    · exact Nat.le_add_right _ _ |>.trans (Nat.add_assoc ..).le
    · have hle := ih h
      omega

/-- Valid stages have a pacer. -/
theorem boundariesIn_eq {base : ℕ} {stages : List ReplayStage}
    (h : base + lasting stages ≤ maxDuration) :
    boundariesIn base stages = some (boundaries base stages) := by
  induction stages generalizing base with
  | nil => rfl
  | cons stage stages ih =>
    have hsum : lasting (stage :: stages) = stage.duration + lasting stages := List.sum_cons
    rw [hsum, ← Nat.add_assoc] at h
    have hfits : ¬ maxDuration < base + stage.duration := by omega
    rw [boundariesIn, if_neg hfits, ih h]
    rfl

theorem newIn_eq {stages : List ReplayStage} (h : validateStages stages = .ok ()) :
    newIn stages = some (new stages) := by
  unfold validateStages at h
  split at h
  · cases h
  · split at h
    · cases h
    · rename_i hsum
      have hfits : 0 + lasting stages ≤ maxDuration := by
        rw [Nat.zero_add]
        exact Nat.le_of_not_lt hsum
      rw [newIn, boundariesIn_eq hfits]
      rfl

theorem ratesPositive_new {stages : List ReplayStage} (hne : stages ≠ [])
    (h : validateStages stages = .ok ()) : (new stages).RatesPositive := by
  constructor
  · intro hnil
    cases stages with
    | nil => exact hne rfl
    | cons stage stages => cases hnil
  · intro stage hmem
    obtain ⟨s, hs, hrate⟩ := rate_of_mem_boundaries hmem
    unfold validateStages at h
    split at h
    · cases h
    · rename_i hany
      rw [← hrate]
      by_contra hzero
      have hrate_zero : s.rate = 0 := by omega
      exact hany (List.any_eq_true.mpr ⟨s, hs, by simp [hrate_zero]⟩)

def second : ℕ := 10 ^ 9

theorem slotInterval_le {rate : ℕ} (hrate : 1 ≤ rate) : slotInterval rate ≤ second := by
  obtain ⟨-, hhigh⟩ := abs_le.mp (abs_slotInterval_sub_le hrate)
  have hone : (1 : ℚ) ≤ rate := by exact_mod_cast hrate
  have hquotient : (10 : ℚ) ^ 9 / rate ≤ 10 ^ 9 := div_le_self (by norm_num) hone
  have hlt : (slotInterval rate : ℚ) < ((10 ^ 9 + 1 : ℕ) : ℚ) := by
    push_cast
    linarith
  have hnat : slotInterval rate < 10 ^ 9 + 1 := by exact_mod_cast hlt
  exact Nat.le_of_lt_succ hnat

theorem after_le (h : p.RatesPositive) (started slot : ℕ) :
    after p.stages started slot ≤ slot + second := by
  rw [after]
  split
  · rename_i boundary rate hfind
    have hinterval := slotInterval_le (h.2 _ (List.mem_of_find?_eq_some hfind))
    exact (min_le_left _ _).trans (Nat.add_le_add_left hinterval slot)
  · exact Nat.add_le_add_left (slotInterval_le h.last) slot

theorem roomAt_of_lt (h : p.RatesPositive) {started slot : ℕ}
    (hboundaries : ∀ stage ∈ p.stages, started + stage.1 < instantLimit)
    (hslot : slot + second < instantLimit) : RoomAt p.stages started slot := by
  rw [RoomAt]
  split
  · rename_i boundary rate hfind
    have hmem := List.mem_of_find?_eq_some hfind
    have hinterval : slotInterval rate ≤ second := slotInterval_le (h.2 _ hmem)
    exact ⟨hboundaries _ hmem, by omega⟩
  · have hinterval := slotInterval_le h.last
    omega

/-- The pending slot and the clock stay a second for each call away from the limit. -/
theorem leavesRoom_started (stages : List (ℕ × ℕ)) {started next latest : ℕ} {nows : List ℕ}
    (h : (StagePacer.mk stages (some started) (some next)).RatesPositive)
    (hboundaries : ∀ stage ∈ stages, started + stage.1 < instantLimit) (hnext : next ≤ latest)
    (hnows : ∀ now ∈ nows, now ≤ latest)
    (hlatest : latest + nows.length * second < instantLimit) :
    (StagePacer.mk stages (some started) (some next)).LeavesRoom nows := by
  induction nows generalizing next latest with
  | nil => trivial
  | cons now nows ih =>
    obtain ⟨hnow, hrest⟩ := List.forall_mem_cons.mp hnows
    rw [List.length_cons, Nat.succ_mul] at hlatest
    have hslot : max next now ≤ latest := max_le hnext hnow
    have hroom : max next now + second < instantLimit := by omega
    constructor
    · exact roomAt_of_lt h hboundaries hroom
    · have hafter := after_le h started (max next now)
      have hpending : after stages started (max next now) ≤ latest + second :=
        hafter.trans (Nat.add_le_add_right hslot _)
      rw [reserve_eq]
      refine ih h hpending ?_ (by omega)
      intro later hlater
      exact (hrest later hlater).trans (Nat.le_add_right _ _)

/-- It is enough that the stages end before the limit and that the clock is a second for each
call away from it. -/
theorem leavesRoom_of_clock {stages : List ReplayStage} (hne : stages ≠ [])
    (hstages : validateStages stages = .ok ()) {started latest : ℕ} {nows : List ℕ}
    (hlasting : started + lasting stages < instantLimit) (hstarted : started ≤ latest)
    (hnows : ∀ now ∈ nows, now ≤ latest)
    (hlatest : latest + (nows.length + 1) * second < instantLimit) :
    (new stages).LeavesRoom (started :: nows) := by
  have hrates := ratesPositive_new hne hstages
  have hboundaries : ∀ stage ∈ (new stages).stages, started + stage.1 < instantLimit := by
    intro stage hmem
    have hle := le_of_mem_boundaries hmem
    omega
  rw [Nat.succ_mul] at hlatest
  have hroom : started + second < instantLimit := by omega
  have hafter := after_le hrates started started
  constructor
  · have hslot : (new stages).Room started = RoomAt (new stages).stages started started := by
      rw [Room]
      simp [new]
    rw [hslot]
    exact roomAt_of_lt hrates hboundaries hroom
  · have hpending : after (boundaries 0 stages) started started ≤ latest + second :=
      hafter.trans (Nat.add_le_add_right hstarted _)
    have hreserved : ((new stages).reserve started).2 = ⟨boundaries 0 stages, some started,
        some (after (boundaries 0 stages) started started)⟩ := by
      rw [reserve_eq]
      simp [new]
    rw [hreserved]
    refine leavesRoom_started _ hrates hboundaries hpending ?_ (by omega)
    intro later hlater
    exact (hnows later hlater).trans (Nat.le_add_right _ _)

end StagePacer

/-- The deadline, the boundaries of the stages and the slots for calls at the given times can be
computed. -/
def InstantsFit (config : RunConfig) (stages : List ReplayStage) (started : ℕ) (nows : List ℕ) :
    Prop :=
  (loadDeadline config started).isSome ∧
    ∃ p, StagePacer.newIn stages = some p ∧ (stages ≠ [] → (p.slotsIn nows).isSome)

/-- No addition overflows if and only if the deadline of the run is before the limit and there is
room for every call of the pacer, if there is one. -/
theorem instantsFit_iff (config : RunConfig) {stages : List ReplayStage}
    (hstages : validateStages stages = .ok ()) (started : ℕ) (nows : List ℕ) :
    InstantsFit config stages started nows ↔
      (∀ duration, config.limit = .duration duration → started + duration < instantLimit) ∧
        (stages ≠ [] → (StagePacer.new stages).LeavesRoom nows) := by
  have hnew := StagePacer.newIn_eq hstages
  have hdeadline : (loadDeadline config started).isSome ↔
      ∀ duration, config.limit = .duration duration → started + duration < instantLimit := by
    rw [loadDeadline]
    cases config.limit with
    | requests n => simp
    | duration duration =>
      by_cases hlt : started + duration < instantLimit
      · simp [addDuration_of_lt hlt, hlt]
      · simp [addDuration_of_le (Nat.le_of_not_lt hlt), hlt]
  refine and_congr hdeadline ?_
  constructor
  · rintro ⟨p, hp, hslots⟩ hne
    obtain rfl : StagePacer.new stages = p := Option.some.inj (hnew.symm.trans hp)
    have hrates := StagePacer.ratesPositive_new hne hstages
    obtain ⟨slots, hslots⟩ := Option.isSome_iff_exists.mp (hslots hne)
    exact StagePacer.leavesRoom_of_slotsIn hrates hslots
  · intro hroom
    refine ⟨StagePacer.new stages, hnew, ?_⟩
    intro hne
    have hrates := StagePacer.ratesPositive_new hne hstages
    rw [StagePacer.slotsIn_of_leavesRoom hrates (hroom hne)]
    rfl

/-- A run for the longest duration, with one stage for all of it. -/
def endlessConfig : RunConfig := ⟨.duration (2 ^ 64 * 10 ^ 9 - 1), 1, 1, 0⟩

def endlessStages : List ReplayStage := [⟨2 ^ 64 * 10 ^ 9 - 1, 1⟩]

theorem instantsFit_iff_second :
    InstantsFit ⟨.duration 1000000000, 1, 1, 0⟩ [⟨1000000000, 1⟩] 0 [0] ↔
      (∀ duration, RunLimit.duration 1000000000 = .duration duration →
        0 + duration < instantLimit) ∧
        ([⟨1000000000, 1⟩] ≠ ([] : List ReplayStage) →
          (StagePacer.new [⟨1000000000, 1⟩]).LeavesRoom [0]) :=
  instantsFit_iff ⟨.duration 1000000000, 1, 1, 0⟩ rfl 0 [0]

/-- Neither the deadline nor the first boundary of valid arguments need be an instant. -/
theorem endless_not_instantsFit :
    endlessConfig.validate = .ok () ∧ validateStages endlessStages = .ok () ∧
      loadDeadline endlessConfig 0 = none ∧
        (StagePacer.new endlessStages).reserveIn 0 = none ∧
          ¬ InstantsFit endlessConfig endlessStages 0 [0] := by
  have hlong : instantLimit ≤ 0 + (2 ^ 64 * 10 ^ 9 - 1) := by norm_num [instantLimit]
  have hdeadline : loadDeadline endlessConfig 0 = none :=
    congrArg (Option.map some) (addDuration_of_le hlong)
  have hboundary : (StagePacer.new endlessStages).reserveIn 0 = none := by
    apply StagePacer.reserveIn_of_not_room
    · exact StagePacer.ratesPositive_new (by decide) rfl
    · rintro ⟨hlt, -⟩
      exact absurd hlt (Nat.not_lt_of_le hlong)
  refine ⟨rfl, rfl, hdeadline, hboundary, ?_⟩
  rintro ⟨hsome, -⟩
  rw [hdeadline] at hsome
  cases hsome

end Rload
