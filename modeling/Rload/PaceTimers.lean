import Rload.DueTimers

/-!
# Timers for paces

A connection that waits for a pace still ahead has a timer for it. A timer leaves the queue when
it is due or stale, and while its connection is of the same generation the pace stays the same.
-/

namespace Rload
open Connection

namespace Desk

variable {token timeout : ℕ} {allowed : Counter → Prop} {n : FailureCounts} {d d₁ d' : Desk}
  {c : Connection} {q q' : TimerQueue} {t t' : ℕ}

/-- The pace that the connection waits for has a timer, as long as it lies ahead. -/
def PaceKept (token t : ℕ) (c : Connection) (q : TimerQueue) : Prop :=
  ∀ time, c.pacingDeadline = some time → t < time → ⟨time, token, c.timerGeneration⟩ ∈ q

theorem PaceKept.later (h : PaceKept token t c q) (hle : t ≤ t') (hsub : ∀ u ∈ q, u ∈ q') :
    PaceKept token t' c q' :=
  fun time htime hahead => hsub _ (h time htime (hle.trans_lt hahead))

theorem paceKept_of_none (h : c.pacingDeadline = none) : PaceKept token t c q := by
  intro time htime
  rw [h] at htime
  cases htime

theorem pacingDeadline_of_done (h : c.done = true) : c.pacingDeadline = none := by
  rw [pacingDeadline, h, Bool.or_true]
  rfl

theorem pacingDeadline_of_not_awaiting (h : c.awaitingPace = false) :
    c.pacingDeadline = none := by
  rw [pacingDeadline, h]
  rfl

theorem mem_scheduledPacing {u : Timer} : u ∈ scheduledPacing token c q ↔
    u ∈ q ∨ ∃ time, c.pacingDeadline = some time ∧ u = ⟨time, token, c.timerGeneration⟩ := by
  rw [scheduledPacing]
  cases hpace : c.pacingDeadline with
  | none => simp
  | some time =>
    simp only [TimerQueue.push, List.mem_orderedInsert, Option.some.injEq, exists_eq_left']
    exact or_comm

theorem paceKept_scheduled : PaceKept token t c (scheduledPacing token c q) :=
  fun time htime _ => mem_scheduledPacing.mpr (Or.inr ⟨time, htime, rfl⟩)

/-- The pace is the same as long as the generation is. -/
theorem Touches.pacingDeadline_eq (h : Touches d n d₁)
    (hpaced : d.connection.Paced d.world.clock)
    (hgen : d₁.connection.timerGeneration = d.connection.timerGeneration) :
    d₁.connection.pacingDeadline = d.connection.pacingDeadline := by
  have hoccasion := (h.follows hpaced).occasion_eq hgen
  have hawaiting : d₁.connection.awaitingPace = d.connection.awaitingPace :=
    congrArg (·.awaitingPace) hoccasion
  have hnotBefore : d₁.connection.notBefore = d.connection.notBefore :=
    congrArg (·.notBefore) h.kept
  have hlimit : d₁.connection.limit = d.connection.limit := congrArg (·.limit) h.kept
  rw [pacingDeadline, pacingDeadline, hawaiting, h.done_eq, hnotBefore, hlimit]

theorem Settles.paceKept (h : Settles token timeout allowed d d') :
    PaceKept token t d'.connection d'.pacing := by
  cases h with
  | cameBack => exact paceKept_scheduled
  | gaveUp h hallowed hf hup hw => exact paceKept_of_none (pacingDeadline_of_done hup.done_after)
  | ranOut => exact paceKept_of_none (pacingDeadline_of_done rfl)
  | stopped h hstop hw =>
    obtain ⟨interest, hc⟩ := hstop.connection_eq
    have hdone := congrArg (·.done) hc
    exact paceKept_of_none (pacingDeadline_of_done hdone)

theorem Turn.paceKept (h : Turn token timeout d d') (hpaced : d.connection.Paced d.world.clock)
    (hkept : PaceKept token d.world.clock d.connection d.pacing) :
    PaceKept token d'.world.clock d'.connection d'.pacing := by
  have hle := h.steady.clock_le
  cases h with
  | rested h hgen =>
    have hlater := hkept.later hle fun u hu => h.pacing_eq.symm ▸ hu
    intro time htime hahead
    rw [h.pacingDeadline_eq hpaced hgen] at htime
    rw [hgen]
    exact hlater time htime hahead
  | begun => exact paceKept_scheduled
  | deferred => exact paceKept_scheduled
  | settled h => exact h.paceKept
  | answeredLast => exact paceKept_of_none (pacingDeadline_of_done rfl)
  | answeredNext => exact paceKept_scheduled
  | resumed hre hopen hw =>
    obtain ⟨addressIndex, now, -, -, rfl⟩ := hopen
    exact paceKept_of_none (pacingDeadline_of_not_awaiting rfl)

theorem Turns.paceKept (h : Turns token timeout d d')
    (hpaced : d.connection.Paced d.world.clock)
    (hkept : PaceKept token d.world.clock d.connection d.pacing) :
    PaceKept token d'.world.clock d'.connection d'.pacing := by
  induction h with
  | refl => exact hkept
  | tail hturns hturn ih => exact hturn.2.paceKept (Turns.paced hturns hpaced) ih

/-- No timer leaves the queue in a turn. -/
theorem mem_of_pacing {u : Timer} (hq : d'.pacing = d.pacing ∨
    d'.pacing = scheduledPacing token d'.connection d.pacing) (hu : u ∈ d.pacing) :
    u ∈ d'.pacing := by
  cases hq with
  | inl hsame => exact hsame.symm ▸ hu
  | inr hnew => exact hnew.symm ▸ mem_scheduledPacing.mpr (Or.inl hu)

theorem Turns.mem_pacing {u : Timer} (h : Turns token timeout d d') (hu : u ∈ d.pacing) :
    u ∈ d'.pacing := by
  induction h with
  | refl => exact hu
  | tail hturns hturn ih => exact mem_of_pacing hturn.2.pacing_eq ih

end Desk

namespace Worker

variable {w w₁ w' : Worker} {P : Timer → Prop}

theorem paceKept_scheduleAll {timeout t : ℕ} {p : Connection × ℕ} (l : List (Connection × ℕ))
    (q : TimerQueue × TimerQueue)
    (h : p ∈ l ∨ Desk.PaceKept p.2 t p.1 q.2) :
    Desk.PaceKept p.2 t p.1 (l.foldl (fun q (c, token) =>
      (Desk.scheduledDeadlines token timeout c q.1, Desk.scheduledPacing token c q.2)) q).2 := by
  induction l generalizing q with
  | nil => exact h.resolve_left List.not_mem_nil
  | cons p' l ih =>
    rw [List.foldl_cons]
    apply ih
    obtain hmem | hkept := h
    · obtain rfl | hmem := List.mem_cons.mp hmem
      · exact Or.inr Desk.paceKept_scheduled
      · exact Or.inl hmem
    · exact Or.inr (hkept.later le_rfl fun u hu => Desk.mem_scheduledPacing.mpr (Or.inl hu))

/-- What the loop keeps of its paces. -/
def PacesKept (w : Worker) : Prop :=
  w.phase.loops = true → ∀ i c, w.connections[i]? = some c →
    Desk.PaceKept i w.world.clock c w.pacing

theorem pacesKept_of_not_loops (h : w.phase.loops = false) : w.PacesKept := by
  intro hloops
  rw [h] at hloops
  cases hloops

theorem pacesKept_entered (w : Worker) : w.enterLoop.PacesKept := by
  intro _ i c hc
  have hp : (c, i) ∈ w.connections.zipIdx := List.mem_zipIdx_iff_getElem?.mpr hc
  exact paceKept_scheduleAll w.connections.zipIdx (w.deadlines, w.pacing) (Or.inl hp)

/-- A timer that leaves the queue is stale, or its time has come. -/
theorem PacesKept.idles (h : w.PacesKept) (hidles : Idles P w w₁)
    (hinstant : ∀ now, w.phase.instant = some now → now ≤ w.world.clock) : w₁.PacesKept := by
  intro _ i c hc time htime hahead
  rw [hidles.connections_eq] at hc
  have hbefore : w.world.clock < time := hidles.later.clock_le.trans_lt hahead
  have hmem := h hidles.loops i c hc time htime hbefore
  obtain hkept | hstale | ⟨now, hnow, hdue⟩ := hidles.paces _ hmem
  · exact hkept
  · rw [isStalePacing, isStale, hc] at hstale
    have hdone : c.done = false := by
      by_contra hdone
      rw [Desk.pacingDeadline_of_done (by simpa using hdone)] at htime
      cases htime
    simp [hdone, htime] at hstale
  · have hle := hinstant now hnow
    dsimp only at hdue
    omega

/-- The paces of the other connections stay. -/
theorem PacesKept.turned {token : ℕ} {c : Connection} {d : Desk} (h : w₁.PacesKept)
    (hloops : w₁.phase.loops = true) (hc : w₁.connections[token]? = some c)
    (hle : w₁.world.clock ≤ d.world.clock) (hmem : ∀ u ∈ w₁.pacing, u ∈ d.pacing)
    (hkept : Desk.PaceKept token d.world.clock d.connection d.pacing) :
    (w₁.withDesk token d).PacesKept := by
  intro _ i c' hc'
  have hc' : (w₁.connections.set token d.connection)[i]? = some c' := hc'
  by_cases hi : i = token
  · subst hi
    rw [List.getElem?_set_self (List.getElem?_eq_some_iff.mp hc).1] at hc'
    cases hc'
    exact hkept
  · rw [List.getElem?_set_ne (Ne.symm hi)] at hc'
    exact (h hloops i c' hc').later hle hmem

theorem invariant_pacesKept : Invariant fun w =>
    ((∀ c ∈ w.connections, c.Paced w.world.clock) ∧ w.Timekeeping) ∧ w.PacesKept where
  sharing w sequence h := ⟨invariant_timekeeping.sharing w sequence h.1, h.2⟩
  move w w' hrunning h hmove := by
    refine ⟨invariant_timekeeping.move w w' hrunning h.1 hmove, ?_⟩
    obtain ⟨⟨hpaced, htimekeeping⟩, h⟩ := h
    cases hmove with
    | halted hhalts => exact pacesKept_of_not_loops (by rw [hhalts.phase_eq]; rfl)
    | entered hphase => exact pacesKept_entered w
    | idled hidles => exact h.idles hidles htimekeeping.instant
    | @handled w₁ token c d hidles hc hturns =>
      have h₁ := h.idles hidles htimekeeping.instant
      have hc₀ := hidles.connections_eq ▸ hc
      have hpaced := invariant_paced.time _ _ c hidles.later.clock_le
        (hpaced c (List.mem_of_getElem? hc₀))
      exact h₁.turned hidles.loops_after hc hturns.steady.clock_le
        (fun u hu => hturns.mem_pacing hu)
        (hturns.paceKept hpaced (h₁ hidles.loops_after token c hc))
    | expired hidles hphase ht hdue htoken hgeneration hc hdone hsettles =>
      have h₁ := h.idles hidles htimekeeping.instant
      exact h₁.turned hidles.loops_after hc hsettles.steady.clock_le
        (fun u hu => Desk.mem_of_pacing hsettles.pacing_eq hu) hsettles.paceKept
    | _ => exact pacesKept_of_not_loops rfl

end Worker

theorem RunInput.pacesKept (input : RunInput) (schedule : List ℕ) :
    ∀ w ∈ (input.after schedule).components, w.Timekeeping ∧ w.PacesKept := by
  intro w hw
  obtain ⟨⟨-, htimekeeping⟩, hkept⟩ := input.forall_worker Worker.invariant_pacesKept
    (fun limits _ worker => ⟨input.timekeeping_newWorker limits worker,
      Worker.pacesKept_of_not_loops rfl⟩) schedule w hw
  exact ⟨htimekeeping, hkept⟩

end Rload
