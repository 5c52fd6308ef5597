import Rload.PacedSlots
import Rload.RequestSequence

/-!
# Pacing by stages

A stage lasts from its start to the boundary at which the next one begins. A slot is followed by
the interval of its stage, but not past the boundary, and after the last boundary the last rate
stays. The stages begin with the first slot.
-/

namespace Rload
namespace StagePacer

/-- The slots for calls at the given times. -/
def slots (p : StagePacer) : List ℕ → List ℕ
  | [] => []
  | now :: nows => (p.reserve now).1 :: (p.reserve now).2.slots nows

/-- No call comes later than the slot that is pending. -/
def OnTime (p : StagePacer) : List ℕ → Prop
  | [] => True
  | now :: nows => (∀ next ∈ p.next, now ≤ next) ∧ (p.reserve now).2.OnTime nows

/-- How long the stages last together. -/
def lasting (stages : List ReplayStage) : ℕ := (stages.map (·.duration)).sum

/-- The slots of the stages from the start on, when no call is late: in each stage those at the
multiples of its interval that are before its boundary. -/
def planned : ℕ → List ReplayStage → List ℕ
  | _, [] => []
  | start, stage :: stages =>
    (List.range (stage.duration ⌈/⌉ slotInterval stage.rate)).map
      (fun j => start + j * slotInterval stage.rate) ++ planned (start + stage.duration) stages

/-- What the slots for calls at the given times, the first of them at `start`, have to be like. -/
structure KeepsStages (stages : List ReplayStage) (start : ℕ) (nows slots : List ℕ) : Prop where
  first : slots.head? = some start
  afterCalls : List.Forall₂ (· ≤ ·) nows slots
  increasing : slots.Pairwise (· < ·)
  capped : ∀ before stage rest, stages = before ++ stage :: rest →
    (slots.filter fun slot => start + lasting before ≤ slot ∧
      slot < start + lasting before + stage.duration).length ≤
        stage.duration ⌈/⌉ slotInterval stage.rate
  planned : (new stages).OnTime nows → ∀ before last, stages = before ++ [last] →
    slots = (planned start stages ++ (List.range nows.length).map
      fun j => start + lasting stages + j * slotInterval last.rate).take nows.length

/-- The slot after the given one. -/
def after (stages : List (ℕ × ℕ)) (started slot : ℕ) : ℕ :=
  match stages.find? fun (boundary, _) => slot - started < boundary with
  | some (boundary, rate) => min (slot + slotInterval rate) (started + boundary)
  | none => slot + slotInterval ((stages.getLast?.map Prod.snd).getD 0)

theorem reserve_eq (p : StagePacer) (now : ℕ) :
    p.reserve now = (max (p.next.getD now) now,
      { p with
        started := some (p.started.getD now)
        next := some (after p.stages (p.started.getD now) (max (p.next.getD now) now)) }) := by
  simp only [reserve, after]
  cases p.stages.find? fun (boundary, _) =>
      max (p.next.getD now) now - p.started.getD now < boundary with
  | none => rfl
  | some stage => rfl

theorem slots_started (stages : List (ℕ × ℕ)) (started next : ℕ) (nows : List ℕ) :
    slots ⟨stages, some started, some next⟩ nows =
      PacedSlots.slots (after stages started) next nows := by
  induction nows generalizing next with
  | nil => rfl
  | cons now nows ih =>
    rw [slots, reserve_eq]
    exact congrArg (List.cons _) (ih _)

theorem slots_new (stages : List ReplayStage) (now : ℕ) (nows : List ℕ) :
    (new stages).slots (now :: nows) =
      PacedSlots.slots (after (boundaries 0 stages) now) now (now :: nows) := by
  rw [slots, reserve_eq, slots_started]
  rfl

theorem onTime_started (stages : List (ℕ × ℕ)) (started next : ℕ) (nows : List ℕ) :
    OnTime ⟨stages, some started, some next⟩ nows ↔
      PacedSlots.OnTime (after stages started) next nows := by
  induction nows generalizing next with
  | nil => rfl
  | cons now nows ih =>
    rw [OnTime, reserve_eq, PacedSlots.OnTime]
    simp only [Option.mem_def, Option.some.injEq, forall_eq', Option.getD_some]
    refine and_congr_right fun hle => ?_
    rw [ih, max_eq_left hle]

theorem onTime_new (stages : List ReplayStage) (now : ℕ) (nows : List ℕ) :
    (new stages).OnTime (now :: nows) ↔
      PacedSlots.OnTime (after (boundaries 0 stages) now) now (now :: nows) := by
  rw [OnTime, reserve_eq, onTime_started, PacedSlots.OnTime]
  simp [new]

theorem find?_boundaries_append {elapsed : ℕ} (base : ℕ) (before stages : List ReplayStage)
    (h : base + lasting before ≤ elapsed) :
    (boundaries base (before ++ stages)).find? (fun (boundary, _) => elapsed < boundary) =
      (boundaries (base + lasting before) stages).find?
        fun (boundary, _) => elapsed < boundary := by
  induction before generalizing base with
  | nil => rfl
  | cons stage before ih =>
    have hlasting : lasting (stage :: before) = stage.duration + lasting before :=
      List.sum_cons
    rw [hlasting] at h ⊢
    have hpast : ¬ elapsed < base + stage.duration := by omega
    rw [List.cons_append, boundaries, List.find?_cons_of_neg (by simpa using hpast),
      ih _ (by omega), ← Nat.add_assoc]

theorem getLast?_boundaries (base : ℕ) (before : List ReplayStage) (last : ReplayStage) :
    (boundaries base (before ++ [last])).getLast?.map Prod.snd = some last.rate := by
  induction before generalizing base with
  | nil => rfl
  | cons stage before ih =>
    have hcons := ih (base + stage.duration)
    rw [List.cons_append, boundaries, List.getLast?_cons]
    cases hlast : (boundaries (base + stage.duration) (before ++ [last])).getLast? with
    | none =>
      rw [hlast] at hcons
      cases hcons
    | some boundary =>
      rw [hlast] at hcons
      exact hcons

theorem rate_of_mem_boundaries {base : ℕ} {stages : List ReplayStage} {stage : ℕ × ℕ}
    (h : stage ∈ boundaries base stages) : ∃ s ∈ stages, s.rate = stage.2 := by
  induction stages generalizing base with
  | nil => cases h
  | cons s stages ih =>
    obtain rfl | h := List.mem_cons.mp h
    · exact ⟨s, List.mem_cons_self, rfl⟩
    · obtain ⟨s', hs', hrate⟩ := ih h
      exact ⟨s', List.mem_cons_of_mem s hs', hrate⟩

@[simp] theorem lasting_append (before stages : List ReplayStage) :
    lasting (before ++ stages) = lasting before + lasting stages := by
  rw [lasting, List.map_append, List.sum_append]
  rfl

@[simp] theorem lasting_singleton (stage : ReplayStage) : lasting [stage] = stage.duration :=
  List.sum_singleton

theorem lt_ceilDiv_iff {duration interval j : ℕ} (h : 0 < interval) :
    j < duration ⌈/⌉ interval ↔ j * interval < duration := by
  rw [← not_le, ceilDiv_le_iff_le_mul h, not_le, mul_comm]

section Stages

variable {stages : List ReplayStage} {start slot : ℕ}

/-- The slot is in the window of a stage. -/
theorem after_stage {before rest : List ReplayStage} {stage : ReplayStage}
    (hstages : stages = before ++ stage :: rest) (hlow : start + lasting before ≤ slot)
    (hhigh : slot < start + lasting before + stage.duration) :
    after (boundaries 0 stages) start slot =
      min (slot + slotInterval stage.rate) (start + (lasting before + stage.duration)) := by
  have hbefore : 0 + lasting before ≤ slot - start := by omega
  have hstage : slot - start < 0 + lasting before + stage.duration := by omega
  have hfind : (boundaries 0 stages).find? (fun (boundary, _) => slot - start < boundary) =
      some (0 + lasting before + stage.duration, stage.rate) := by
    rw [hstages, find?_boundaries_append 0 before _ hbefore, boundaries,
      List.find?_cons_of_pos (by simpa using hstage)]
  rw [after, hfind]
  simp only [Nat.zero_add]

/-- The stages are past. -/
theorem after_last {before : List ReplayStage} {last : ReplayStage}
    (hstages : stages = before ++ [last]) (hlow : start + lasting stages ≤ slot) :
    after (boundaries 0 stages) start slot = slot + slotInterval last.rate := by
  have hpast : 0 + lasting stages ≤ slot - start := by omega
  have hfind : (boundaries 0 stages).find? (fun (boundary, _) => slot - start < boundary) =
      none := by
    have hall := find?_boundaries_append 0 stages [] hpast
    rwa [List.append_nil] at hall
  rw [after, hfind, hstages, getLast?_boundaries]
  rfl

variable (hne : stages ≠ []) (hduration : ∀ stage ∈ stages, 0 < stage.duration)
  (hinterval : ∀ stage ∈ stages, 0 < slotInterval stage.rate)
include hinterval

include hne in
theorem lt_after (start slot : ℕ) : slot < after (boundaries 0 stages) start slot := by
  rw [after]
  split
  · rename_i boundary rate hfind
    obtain ⟨stage, hstage, rfl⟩ := rate_of_mem_boundaries (List.mem_of_find?_eq_some hfind)
    have hbefore := List.find?_some hfind
    rw [decide_eq_true_eq] at hbefore
    have hpos := hinterval stage hstage
    refine lt_min ?_ ?_ <;> omega
  · obtain ⟨before, last, hlast⟩ := (List.eq_nil_or_concat stages).resolve_left hne
    have hpos := hinterval last (by simp [hlast])
    rw [hlast, List.concat_eq_append, getLast?_boundaries]
    exact Nat.lt_add_of_pos_right hpos

include hduration

/-- Each slot of the plan is the one after the slot before. -/
theorem isChain_planned (start : ℕ) {last : ReplayStage} {init : List ReplayStage}
    (hlast : stages = init ++ [last]) (count : ℕ) {before rest : List ReplayStage}
    (hstages : stages = before ++ rest) :
    (planned (start + lasting before) rest ++ (List.range count).map
        fun j => start + lasting stages + j * slotInterval last.rate).IsChain
      (fun a b => after (boundaries 0 stages) start a = b) ∧
    ∀ first ∈ (planned (start + lasting before) rest ++ (List.range count).map
        fun j => start + lasting stages + j * slotInterval last.rate).head?,
      first = start + lasting before := by
  induction rest generalizing before with
  | nil =>
    rw [List.append_nil] at hstages
    subst hstages
    constructor
    · rw [planned, List.nil_append, List.isChain_map, List.isChain_range]
      intro j _
      rw [after_last hlast (Nat.le_add_right _ _), Nat.succ_mul, Nat.add_assoc]
    · intro first hfirst
      cases count with
      | zero => cases hfirst
      | succ count => simpa [planned, List.range_succ_eq_map] using hfirst.symm
  | cons stage rest ih =>
    have hmem : stage ∈ stages := by simp [hstages]
    have hpos := hinterval stage hmem
    have hmore : 0 < stage.duration ⌈/⌉ slotInterval stage.rate := by
      rw [lt_ceilDiv_iff hpos, Nat.zero_mul]
      exact hduration stage hmem
    have hnext : stages = (before ++ [stage]) ++ rest := by
      rw [hstages, List.append_assoc, List.singleton_append]
    have hstage : ∀ j, j * slotInterval stage.rate < stage.duration →
        after (boundaries 0 stages) start (start + lasting before + j * slotInterval stage.rate) =
          min (start + lasting before + (j + 1) * slotInterval stage.rate)
            (start + (lasting before + stage.duration)) := by
      intro j hj
      rw [after_stage hstages (Nat.le_add_right _ _) (by omega), Nat.succ_mul, Nat.add_assoc _ _
        (slotInterval stage.rate)]
    obtain ⟨count', hcount⟩ := Nat.exists_eq_succ_of_ne_zero hmore.ne'
    have hend : start + lasting before + stage.duration = start + lasting (before ++ [stage]) := by
      rw [lasting_append, lasting_singleton, Nat.add_assoc]
    obtain ⟨hchain, hhead⟩ := ih hnext
    rw [planned, hend, List.append_assoc, List.isChain_append]
    refine ⟨⟨?_, hchain, ?_⟩, ?_⟩
    · -- inside the stage
      rw [List.isChain_map, List.isChain_range]
      intro j hj
      have hbefore : (j + 1) * slotInterval stage.rate < stage.duration :=
        (lt_ceilDiv_iff hpos).mp (by omega)
      rw [hstage j (by rw [Nat.succ_mul] at hbefore; omega), Nat.succ_eq_add_one]
      exact min_eq_left (by omega)
    · -- from its last slot to the boundary
      intro slot hslot first hfirst
      rw [hcount, List.range_succ, List.map_append, List.map_singleton,
        List.getLast?_concat] at hslot
      cases hslot
      rw [hhead first hfirst, ← hend]
      have hbefore : count' * slotInterval stage.rate < stage.duration :=
        (lt_ceilDiv_iff hpos).mp (by omega)
      have hpast : stage.duration ≤ (count' + 1) * slotInterval stage.rate := by
        rw [← not_lt, ← lt_ceilDiv_iff hpos]
        omega
      rw [hstage count' hbefore, min_eq_right (by omega), Nat.add_assoc]
    · intro first hfirst
      rw [hcount, List.range_succ_eq_map, List.map_cons] at hfirst
      cases hfirst
      rw [Nat.zero_mul, Nat.add_zero]

/-- The plan is what follows from its first slot on. -/
theorem planned_eq_iterate {last : ReplayStage} {init : List ReplayStage}
    (hlast : stages = init ++ [last]) (start count : ℕ) :
    (planned start stages ++ (List.range count).map
      fun j => start + lasting stages + j * slotInterval last.rate).take count =
        List.iterate (after (boundaries 0 stages) start) start count := by
  obtain ⟨hchain, hhead⟩ := isChain_planned hduration hinterval start hlast count
    (List.nil_append stages).symm
  have hlength : count ≤ (planned (start + lasting []) stages ++ (List.range count).map
      fun j => start + lasting stages + j * slotInterval last.rate).length := by
    rw [List.length_append, List.length_map, List.length_range]
    exact Nat.le_add_left _ _
  change (planned (start + lasting []) stages ++ _).take count = _
  generalize planned (start + lasting []) stages ++ (List.range count).map (fun j =>
    start + lasting stages + j * slotInterval last.rate) = plan at hchain hhead hlength ⊢
  cases plan with
  | nil =>
    obtain rfl := Nat.le_zero.mp hlength
    rfl
  | cons first plan =>
    obtain rfl : first = start := hhead first rfl
    rw [← PacedSlots.iterate_eq_of_isChain hchain, List.take_iterate, ← List.length_cons,
      min_eq_left hlength]

include hne in
/-- For stages that last and rates with an interval: the first slot is at the first call, the
slots are ordered and not before their calls, no stage has more of them than fit, and calls in
time get all slots of the plan. -/
theorem slots_keepStages (start : ℕ) (nows : List ℕ) :
    KeepsStages stages start (start :: nows) ((new stages).slots (start :: nows)) := by
  have hlater := lt_after hne hinterval start
  have hspaced := PacedSlots.pairwise_slots (fun slot => (hlater slot).le) start (start :: nows)
  constructor
  · rw [slots_new, PacedSlots.slots, max_self]
    rfl
  · rw [slots_new]
    exact PacedSlots.now_le_slots start (start :: nows)
  · rw [slots_new]
    exact hspaced.imp fun {a b} h => (hlater a).trans_le h
  · intro before stage rest hstages
    have hpos := hinterval stage (by simp [hstages])
    have hgaps : ((new stages).slots (start :: nows)).Pairwise fun a b =>
        start + lasting before ≤ a → b < start + lasting before + stage.duration →
          a + slotInterval stage.rate ≤ b := by
      rw [slots_new]
      refine hspaced.imp ?_
      intro a b hab hlow hhigh
      have hwithin : a < start + lasting before + stage.duration :=
        ((hlater a).trans_le hab).trans hhigh
      rw [after_stage hstages hlow hwithin, min_le_iff] at hab
      omega
    have hlength := PacedSlots.length_window_mul_lt _ stage.duration hgaps hpos
    have hcover : stage.duration ≤ _ := le_smul_ceilDiv hpos
    rw [← Nat.lt_succ_iff]
    refine lt_of_mul_lt_mul_right ?_ (Nat.zero_le (slotInterval stage.rate))
    rw [smul_eq_mul, mul_comm] at hcover
    rw [Nat.succ_mul]
    omega
  · intro honTime before last hlast
    rw [onTime_new] at honTime
    rw [planned_eq_iterate hduration hinterval hlast, slots_new, honTime.slots]

end Stages

/-- A call at 0.6 s is late for the second of two stages. -/
theorem two_stages_kept :
    KeepsStages [⟨500000000, 4⟩, ⟨1000000000, 3⟩] 0 [0, 600000000, 600000000]
      ((new [⟨500000000, 4⟩, ⟨1000000000, 3⟩]).slots [0, 600000000, 600000000]) :=
  slots_keepStages (by simp) (by decide) (by decide +kernel) 0 [600000000, 600000000]

end StagePacer
end Rload
