import Rload.Deadlines

/-!
# The order of the timers

The queues of a worker are in the order of their times throughout. So the timers that are due
come first, and nothing that is due stays behind when the first timer of a queue is not due.
-/

namespace Rload
open StatefulPrograms

namespace Timer

instance : Std.Total Before where
  total t u := by
    simp only [Before]
    omega

instance : IsTrans Timer Before where
  trans t u v h h' := by
    simp only [Before] at h h' ⊢
    omega

theorem Before.time_le {t u : Timer} (h : t.Before u) : t.time ≤ u.time := by
  simp only [Before] at h
  omega

end Timer

namespace TimerQueue

/-- The earlier timers come first. -/
def InOrder (q : TimerQueue) : Prop := q.Pairwise Timer.Before

variable {q q' : TimerQueue} {t : Timer} {now : ℕ}

theorem InOrder.push (h : q.InOrder) (t : Timer) : (q.push t).InOrder :=
  List.Pairwise.orderedInsert t q h

theorem InOrder.dropWhile (h : q.InOrder) (p : Timer → Bool) : InOrder (q.dropWhile p) :=
  List.Pairwise.sublist (List.dropWhile_sublist p) h

theorem InOrder.tail (h : InOrder (t :: q)) : q.InOrder := (List.pairwise_cons.mp h).2

/-- Where the first timer is not due, none is. -/
theorem InOrder.lt_of_due (h : q.InOrder) (hdue : Worker.due now q = none) :
    ∀ t ∈ q, now < t.time := by
  cases q with
  | nil => exact List.forall_mem_nil _
  | cons u q =>
    rw [Worker.due] at hdue
    split at hdue
    · rename_i hlt
      refine List.forall_mem_cons.mpr ⟨hlt, fun t ht => ?_⟩
      exact hlt.trans_le ((List.pairwise_cons.mp h).1 t ht).time_le
    · cases hdue

end TimerQueue

namespace Desk

variable {token timeout : ℕ} {allowed : Counter → Prop} {n : FailureCounts} {d d' : Desk}

theorem Touches.pacing_eq (h : Touches d n d') : d'.pacing = d.pacing := by
  induction h with
  | refl => rfl
  | exchange _ hx hw ih => exact ih
  | read _ hr hw ih => exact ih

/-- The queue of the paces after a turn: the one before it, or with the pace that is waited
for now. -/
theorem Settles.pacing_eq (h : Settles token timeout allowed d d') :
    d'.pacing = d.pacing ∨ d'.pacing = scheduledPacing token d'.connection d.pacing := by
  cases h with
  | cameBack h =>
    rw [← h.pacing_eq]
    exact Or.inr rfl
  | gaveUp h => exact Or.inl h.pacing_eq
  | ranOut h => exact Or.inl h.pacing_eq
  | stopped h => exact Or.inl h.pacing_eq

theorem Turn.pacing_eq (h : Turn token timeout d d') :
    d'.pacing = d.pacing ∨ d'.pacing = scheduledPacing token d'.connection d.pacing := by
  cases h with
  | rested h => exact Or.inl h.pacing_eq
  | begun h =>
    rw [← h.pacing_eq]
    exact Or.inr rfl
  | deferred h =>
    rw [← h.pacing_eq]
    exact Or.inr rfl
  | settled h => exact h.pacing_eq
  | answeredLast => exact Or.inl rfl
  | answeredNext => exact Or.inr rfl
  | resumed => exact Or.inl rfl

/-- Both queues of the desk are in order. -/
structure InOrder (d : Desk) : Prop where
  deadlines : d.deadlines.InOrder
  pacing : d.pacing.InOrder

theorem inOrder_scheduledDeadlines {q : TimerQueue} (h : q.InOrder) (token timeout : ℕ)
    (c : Connection) : (scheduledDeadlines token timeout c q).InOrder := by
  rw [scheduledDeadlines]
  split
  · exact h.push _
  · exact h

theorem inOrder_scheduledPacing {q : TimerQueue} (h : q.InOrder) (token : ℕ) (c : Connection) :
    (scheduledPacing token c q).InOrder := by
  rw [scheduledPacing]
  split
  · exact h.push _
  · exact h

theorem InOrder.of_eq (h : d.InOrder)
    (hdeadlines : d'.deadlines = d.deadlines ∨
      d'.deadlines = scheduledDeadlines token timeout d'.connection d.deadlines)
    (hpacing : d'.pacing = d.pacing ∨
      d'.pacing = scheduledPacing token d'.connection d.pacing) : d'.InOrder := by
  constructor
  · obtain hsame | hnew := hdeadlines
    · rw [hsame]
      exact h.deadlines
    · rw [hnew]
      exact inOrder_scheduledDeadlines h.deadlines _ _ _
  · obtain hsame | hnew := hpacing
    · rw [hsame]
      exact h.pacing
    · rw [hnew]
      exact inOrder_scheduledPacing h.pacing _ _

theorem Settles.inOrder (h : Settles token timeout allowed d d') (hd : d.InOrder) : d'.InOrder :=
  hd.of_eq (h.deadlines_eq.imp And.left id) h.pacing_eq

theorem Turn.inOrder (h : Turn token timeout d d') (hd : d.InOrder) : d'.InOrder :=
  hd.of_eq h.deadlines_eq h.pacing_eq

theorem Turns.inOrder (h : Turns token timeout d d') (hd : d.InOrder) : d'.InOrder := by
  induction h with
  | refl => exact hd
  | tail _ hturn ih => exact hturn.2.inOrder ih

end Desk

namespace Worker

/-- Both queues of the worker are in order. -/
structure InOrder (w : Worker) : Prop where
  deadlines : w.deadlines.InOrder
  pacing : w.pacing.InOrder

variable {w : Worker}

theorem work_inOrder (h : w.InOrder) (token : ℕ) {handler : DeskM Unit}
    (hhandler : ∀ d : Desk, d.InOrder →
      Ensures handler d (fun _ d' => d'.InOrder) fun _ _ => True) :
    (w.work token handler).InOrder := by
  unfold work
  split
  · exact ⟨h.deadlines, h.pacing⟩
  · rename_i c hc
    split
    · exact ⟨h.deadlines, h.pacing⟩
    · rename_i d hd
      have hd := (hhandler (w.desk c) ⟨h.deadlines, h.pacing⟩).of_ok hd
      exact ⟨hd.deadlines, hd.pacing⟩

/-- What the timers of each connection keep, the timers of all connections keep. -/
theorem scheduleAll_induction {P : TimerQueue × TimerQueue → Prop} {timeout : ℕ}
    {connections : List Connection} {deadlines pacing : TimerQueue} (hstart : P (deadlines, pacing))
    (hschedule : ∀ p ∈ connections.zipIdx, ∀ q, P q →
      P (Desk.scheduledDeadlines p.2 timeout p.1 q.1, Desk.scheduledPacing p.2 p.1 q.2)) :
    P (scheduleAll timeout connections deadlines pacing) :=
  List.foldlRecOn connections.zipIdx _ hstart fun q hq p hp => hschedule p hp q hq

theorem scheduleAll_inOrder (timeout : ℕ) (connections : List Connection)
    {deadlines pacing : TimerQueue} (hdeadlines : deadlines.InOrder) (hpacing : pacing.InOrder) :
    (scheduleAll timeout connections deadlines pacing).1.InOrder ∧
      (scheduleAll timeout connections deadlines pacing).2.InOrder := by
  refine scheduleAll_induction (P := fun q => q.1.InOrder ∧ q.2.InOrder) ⟨hdeadlines, hpacing⟩ ?_
  intro p _ q hq
  exact ⟨Desk.inOrder_scheduledDeadlines hq.1 _ _ _, Desk.inOrder_scheduledPacing hq.2 _ _⟩

theorem startNext_queues (limit : ConnectionLimit) (limits : List ConnectionLimit)
    (attempts : ℕ) (w : Worker) :
    (startNext limit limits attempts w).deadlines = w.deadlines ∧
      (startNext limit limits attempts w).pacing = w.pacing := by
  unfold startNext attemptFailed
  split
  · split
    · simp only [now_eq, sleep_eq]
      split
      · split <;> exact ⟨rfl, rfl⟩
      · split <;> exact ⟨rfl, rfl⟩
    · exact ⟨rfl, rfl⟩
  · split <;> exact ⟨rfl, rfl⟩

theorem step_inOrder (h : w.InOrder) : w.step.InOrder := by
  cases hphase : w.phase with
  | opening limits =>
    simp only [step, hphase, openPoll]
    split <;> exact ⟨h.deadlines, h.pacing⟩
  | starting limits attempts =>
    cases limits with
    | nil =>
      simp only [step, hphase, enterLoop]
      obtain ⟨hdeadlines, hpacing⟩ :=
        scheduleAll_inOrder w.timeout w.connections h.deadlines h.pacing
      exact ⟨hdeadlines, hpacing⟩
    | cons limit limits =>
      simp only [step, hphase]
      obtain ⟨hdeadlines, hpacing⟩ := startNext_queues limit limits attempts w
      exact ⟨hdeadlines ▸ h.deadlines, hpacing ▸ h.pacing⟩
  | polling =>
    simp only [step, hphase, poll]
    split
    · exact ⟨h.deadlines, h.pacing⟩
    · split <;> exact ⟨h.deadlines.dropWhile _, h.pacing.dropWhile _⟩
  | handling events =>
    cases events with
    | nil =>
      simp only [step, hphase, readClock, now_eq]
      exact ⟨h.deadlines, h.pacing⟩
    | cons event events =>
      simp only [step, hphase]
      refine work_inOrder (w := w.goTo (.handling events)) ⟨h.deadlines, h.pacing⟩ _ fun d hd => ?_
      exact Ensures.mono (Desk.handleEvent_takes event) (fun _ _ hturns => hturns.inOrder hd)
        fun _ _ _ => ⟨⟩
  | expiring now =>
    simp only [step, hphase]
    split
    · simp only [readClock, now_eq]
      exact ⟨h.deadlines, h.pacing⟩
    · rename_i t deadlines hdue
      have hrest : deadlines.InOrder := ((due_eq_some hdue).1 ▸ h.deadlines).tail
      split
      · exact ⟨hrest, h.pacing⟩
      · refine work_inOrder (w := { w with deadlines := deadlines, phase := .expiring now })
          ⟨hrest, h.pacing⟩ _ fun d hd => ?_
        exact Ensures.mono Desk.handleExpired_handles (fun _ _ hsettles => hsettles.inOrder hd)
          fun _ _ _ => ⟨⟩
  | resuming now =>
    simp only [step, hphase]
    split
    · exact ⟨h.deadlines, h.pacing⟩
    · rename_i t pacing hdue
      have hrest : pacing.InOrder := ((due_eq_some hdue).1 ▸ h.pacing).tail
      split
      · exact ⟨h.deadlines, hrest⟩
      · refine work_inOrder (w := { w with pacing := pacing, phase := .resuming now })
          ⟨h.deadlines, hrest⟩ _ fun d hd => ?_
        have hturn : Ensures Desk.handlePace d (fun _ d' => Desk.Turn 0 0 d d')
            fun e d' => d.world.Ends e d'.world := Desk.handlePace_handles
        exact hturn.mono (fun _ _ hturn => hturn.inOrder hd) fun _ _ _ => ⟨⟩
  | finished result =>
    rw [step_of_finished (by rw [hphase]; rfl)]
    exact h

end Worker

theorem RunInput.inOrder (input : RunInput) (schedule : List ℕ) :
    ∀ w ∈ (input.after schedule).components, w.InOrder := by
  apply SharedResource.forall_run (P := Worker.InOrder) Worker.shareStep
  · intro w sequence h
    have hsharing : (w.sharing sequence).InOrder := ⟨h.deadlines, h.pacing⟩
    exact Worker.step_inOrder hsharing
  · intro w hw
    rw [start_components, List.mem_map] at hw
    obtain ⟨⟨limits, worker⟩, -, rfl⟩ := hw
    exact ⟨List.Pairwise.nil, List.Pairwise.nil⟩

end Rload
