import Rload.PaceTimers

/-!
# Idle polls

A poll waits until an open connection is to be woken. Stale timers neither wake the worker nor
keep it asleep, and where no event comes the poll ends when a timer is due.
-/

namespace Rload
open StatefulPrograms

/-- The first of some times, if there is one. -/
def IsFirst (times : List ℕ) : Option ℕ → Prop
  | none => times = []
  | some first => first ∈ times ∧ ∀ time ∈ times, first ≤ time

/-- The first of two times that there may be. -/
def firstOf : Option ℕ → Option ℕ → Option ℕ
  | some a, some b => some (min a b)
  | a, b => a.or b

variable {times times' : List ℕ} {first first' : Option ℕ}

theorem IsFirst.exists_le (h : IsFirst times first) {time : ℕ} (htime : time ∈ times) :
    ∃ a, first = some a ∧ a ≤ time := by
  cases first with
  | none =>
    rw [IsFirst] at h
    rw [h] at htime
    cases htime
  | some a => exact ⟨a, rfl, h.2 time htime⟩

theorem isFirst_append (h : IsFirst times first)
    (h' : IsFirst times' first') :
    IsFirst (times ++ times') (firstOf first first') := by
  cases first with
  | none =>
    rw [IsFirst] at h
    subst h
    cases first' with
    | none => exact h'
    | some b => exact h'
  | some a =>
    cases first' with
    | none =>
      rw [IsFirst] at h'
      subst h'
      rw [List.append_nil]
      exact h
    | some b =>
      obtain ⟨hmem, hle⟩ := h
      obtain ⟨hmem', hle'⟩ := h'
      refine ⟨?_, fun time htime => ?_⟩
      · cases min_choice a b with
        | inl hmin => exact List.mem_append_left _ (hmin.symm ▸ hmem)
        | inr hmin => exact List.mem_append_right _ (hmin.symm ▸ hmem')
      · obtain hold | hnew := List.mem_append.mp htime
        · exact (min_le_left a b).trans (hle time hold)
        · exact (min_le_right a b).trans (hle' time hnew)

/-- Once the stale timers before it are dropped, the first timer is the earliest of the others. -/
theorem TimerQueue.InOrder.isFirst {q : TimerQueue} (h : q.InOrder) (stale : Timer → Bool) :
    IsFirst ((q.filter fun t => !stale t).map Timer.time)
      ((q.dropWhile stale).head?.map Timer.time) := by
  induction q with
  | nil => exact rfl
  | cons u q ih =>
    obtain ⟨hfirst, hrest⟩ := List.pairwise_cons.mp h
    cases hstale : stale u with
    | true =>
      rw [List.dropWhile_cons_of_pos hstale, List.filter_cons_of_neg (by rw [hstale]; decide)]
      exact ih hrest
    | false =>
      rw [List.dropWhile_cons_of_neg (by rw [hstale]; decide),
        List.filter_cons_of_pos (by rw [hstale]; rfl), List.map_cons]
      refine ⟨List.mem_cons_self, List.forall_mem_cons.mpr ⟨le_rfl, fun time htime => ?_⟩⟩
      obtain ⟨v, hv, rfl⟩ := List.mem_map.mp htime
      exact (hfirst v (List.mem_of_mem_filter hv)).time_le

/-- A time at which an open connection is to be woken: its deadline or its pace. -/
def Connection.Wants (timeout : ℕ) (c : Connection) (time : ℕ) : Prop :=
  c.done = false ∧ (c.nextDeadline timeout = some time ∨ c.pacingDeadline = some time)

namespace Worker

/-- The times for which there are timers: the deadline of a connection that has never connected
again at its pace, and a pace that lies ahead. -/
def Expects (w : Worker) (c : Connection) (time : ℕ) : Prop :=
  c.done = false ∧
    (c.nextDeadline w.timeout = some time ∧ (∀ h ∈ c.history, h.isReconnect = false) ∨
      c.pacingDeadline = some time ∧ w.world.clock < time)

/-- The times of the timers that are not stale. -/
def liveTimes (w : Worker) : List ℕ :=
  (w.deadlines.filter fun t => !isStale w.connections t).map Timer.time ++
    (w.pacing.filter fun t => !isStalePacing w.connections t).map Timer.time

/-- A timer of the queues is due at the time. -/
def SomeDue (now : ℕ) (w : Worker) : Prop :=
  (due now w.deadlines).isSome ∨ (due now w.pacing).isSome

/-- A timeout that was computed between two times. It never goes past `first`, and from the later
one on it reaches it. -/
structure Reaches (first : Option ℕ) (now later : ℕ) (timeout : Option ℕ) : Prop where
  none_iff : timeout = none ↔ first = none
  notLate : ∀ time ∈ first, ∀ nanos ∈ timeout, now + nanos ≤ max now time
  enough : ∀ time ∈ first, ∀ nanos ∈ timeout, time ≤ later + nanos

theorem ensures_pollTimeout (deadlines pacing : TimerQueue) (world : World) :
    Ensures (pollTimeout deadlines pacing) world (fun timeout world' => world.Later 0 world' ∧
      Reaches (firstOf (deadlines.head?.map Timer.time) (pacing.head?.map Timer.time)) world.clock
        world'.clock timeout) fun _ _ => False := by
  unfold pollTimeout untilFirst
  cases hdeadline : deadlines.head? with
  | none =>
    cases hpacing : pacing.head? with
    | none =>
      simp only [ensures_bind, ensures_pure]
      refine ⟨.refl _, by simp [firstOf], ?_, ?_⟩
      · rintro _ ⟨⟩
      · rintro _ ⟨⟩
    | some u =>
      simp only [ensures_bind, ensures_pure]
      apply World.ensures_now
      intro world' hlater
      refine ⟨hlater, by simp [firstOf], ?_, ?_⟩
      · rintro _ ⟨⟩ _ ⟨⟩
        have hle := hlater.clock_le
        omega
      · rintro _ ⟨⟩ _ ⟨⟩
        omega
  | some t =>
    cases hpacing : pacing.head? with
    | none =>
      simp only [ensures_bind, ensures_pure]
      apply World.ensures_now
      intro world' hlater
      refine ⟨hlater, by simp [firstOf], ?_, ?_⟩
      · rintro _ ⟨⟩ _ ⟨⟩
        have hle := hlater.clock_le
        omega
      · rintro _ ⟨⟩ _ ⟨⟩
        omega
    | some u =>
      simp only [ensures_bind, ensures_pure]
      apply World.ensures_now
      intro world₁ hlater₁
      apply World.ensures_now
      intro world₂ hlater₂
      have hle₁ := hlater₁.clock_le
      have hle₂ := hlater₂.clock_le
      refine ⟨hlater₁.zero_trans hlater₂, by simp [firstOf], ?_, ?_⟩
      · rintro _ ⟨⟩ _ ⟨⟩
        omega
      · rintro _ ⟨⟩ _ ⟨⟩
        omega

/-- A poll without an event lasts as long as its timeout. -/
theorem ensures_pollEvents (timeout : Option ℕ) (world : World) :
    Ensures (pollEvents timeout) world (fun events world' =>
      events = [] → world.clock + timeout.getD 0 ≤ world'.clock) fun _ _ => True := by
  unfold pollEvents
  simp only [ensures_bind, ensures_get]
  refine (World.service_spec world).mono (fun reply world' _ => ?_) fun _ _ _ => ⟨⟩
  by_cases hidle : reply.events = []
  · simp only [if_pos hidle]
    exact fun _ => le_max_right _ _
  · simp only [if_neg hidle]
    exact fun hevents => absurd hevents hidle

variable {w : Worker}

theorem InOrder.isFirst (h : w.InOrder) : IsFirst w.liveTimes
    (firstOf (w.discardStale.deadlines.head?.map Timer.time)
      (w.discardStale.pacing.head?.map Timer.time)) :=
  isFirst_append (h.deadlines.isFirst _) (h.pacing.isFirst _)

theorem someDue_of_first {first now : ℕ}
    (h : firstOf (w.deadlines.head?.map Timer.time) (w.pacing.head?.map Timer.time) = some first)
    (hle : first ≤ now) : w.SomeDue now := by
  have hdue : ∀ {t : Timer} {q : TimerQueue}, q.head? = some t → t.time ≤ now →
      (due now q).isSome := by
    intro t q hhead hle
    obtain ⟨rest, rfl⟩ := List.head?_eq_some_iff.mp hhead
    rw [due, if_neg (Nat.not_lt_of_le hle)]
    rfl
  cases hdeadline : w.deadlines.head? with
  | none =>
    cases hpacing : w.pacing.head? with
    | none =>
      rw [hdeadline, hpacing] at h
      cases h
    | some u =>
      rw [hdeadline, hpacing] at h
      cases h
      exact Or.inr (hdue hpacing hle)
  | some t =>
    cases hpacing : w.pacing.head? with
    | none =>
      rw [hdeadline, hpacing] at h
      cases h
      exact Or.inl (hdue hdeadline hle)
    | some u =>
      rw [hdeadline, hpacing] at h
      cases h
      cases min_choice t.time u.time with
      | inl hmin => exact Or.inl (hdue hdeadline (hmin ▸ hle))
      | inr hmin => exact Or.inr (hdue hpacing (hmin ▸ hle))

/-- A timer of the generation of an open connection is not stale. -/
theorem not_stale_of_open {i time : ℕ} {c : Connection} (hc : w.connections[i]? = some c)
    (hopen : c.done = false) : isStale w.connections ⟨time, i, c.timerGeneration⟩ = false := by
  rw [isStale, hc]
  simp [hopen]

section Loops

variable {i time : ℕ} {c : Connection} (hloops : w.phase.loops = true)
include hloops

theorem Timekeeping.mem_liveTimes (h : w.Timekeeping) (hc : w.connections[i]? = some c)
    (hopen : c.done = false) (hnever : ∀ h ∈ c.history, h.isReconnect = false)
    (hnext : c.nextDeadline w.timeout = some time) : time ∈ w.liveTimes := by
  obtain ⟨htimed, hcovered⟩ := h.timed hloops i c hc
  have hawaiting := Connection.awaitingPace_of_nextDeadline hnext
  obtain ⟨⟨time', token, generation⟩, ht, rfl, rfl⟩ := hcovered hopen hawaiting hnever
  cases hnext.symm.trans ((htimed _ ht rfl).2 rfl)
  refine List.mem_append_left _ (List.mem_map.mpr ⟨_, List.mem_filter.mpr ⟨ht, ?_⟩, rfl⟩)
  rw [not_stale_of_open hc hopen]
  rfl

theorem PacesKept.mem_liveTimes (h : w.PacesKept) (hc : w.connections[i]? = some c)
    (hpace : c.pacingDeadline = some time) (hahead : w.world.clock < time) :
    time ∈ w.liveTimes := by
  have ht := h hloops i c hc time hpace hahead
  have hopen : c.done = false := by
    by_contra hdone
    rw [Desk.pacingDeadline_of_done (by simpa using hdone)] at hpace
    cases hpace
  refine List.mem_append_right _ (List.mem_map.mpr ⟨_, List.mem_filter.mpr ⟨ht, ?_⟩, rfl⟩)
  rw [isStalePacing, not_stale_of_open hc hopen, hc, Option.bind_some, hpace]
  simp

/-- What is live is for an open connection. -/
theorem Timekeeping.exists_wants (h : w.Timekeeping) (htime : time ∈ w.liveTimes) :
    ∃ c ∈ w.connections, c.Wants w.timeout time := by
  obtain hdeadline | hpace := List.mem_append.mp htime
  · obtain ⟨t, ht, rfl⟩ := List.mem_map.mp hdeadline
    obtain ⟨ht, hlive⟩ := List.mem_filter.mp ht
    have hc := List.getElem?_eq_getElem (h.owned hloops t ht)
    have hfresh : isStale w.connections t = false := by simpa using hlive
    have hnext := ((h.timed hloops t.token _ hc).1 t ht rfl).2 (not_stale_generation hfresh hc)
    exact ⟨_, List.mem_of_getElem? hc, not_stale_not_done hfresh hc, Or.inl hnext⟩
  · obtain ⟨t, ht, rfl⟩ := List.mem_map.mp hpace
    obtain ⟨-, hlive⟩ := List.mem_filter.mp ht
    have hfresh : isStale w.connections t = false ∧
        w.connections[t.token]?.bind Connection.pacingDeadline = some t.time := by
      simpa [isStalePacing] using hlive
    obtain ⟨c, hc, hpace⟩ := Option.bind_eq_some_iff.mp hfresh.2
    exact ⟨c, List.mem_of_getElem? hc, not_stale_not_done hfresh.1 hc, Or.inr hpace⟩

end Loops

/-- What a poll does before it asks for events. -/
theorem pollTimeout_discardStale (w : Worker) :
    ∃ timeout world, pollTimeout w.discardStale.deadlines w.discardStale.pacing w.world =
        .ok timeout world ∧
      Reaches (firstOf (w.discardStale.deadlines.head?.map Timer.time)
        (w.discardStale.pacing.head?.map Timer.time)) w.world.clock world.clock timeout := by
  have hspec := ensures_pollTimeout w.discardStale.deadlines w.discardStale.pacing w.world
  cases hresult : pollTimeout w.discardStale.deadlines w.discardStale.pacing w.world with
  | ok timeout world => exact ⟨timeout, world, rfl, (hspec.of_ok hresult).2⟩
  | error e world => exact (hspec.of_error hresult).elim

end Worker

namespace RunInput
open Worker

/-- A poll goes on until an open connection is to be woken. It does not go past the deadline of a
connection that has never connected again at its pace, nor past a pace that lies ahead; and the
timeout that it has is for an open connection, whose time has come after a poll without an
event. -/
theorem polls_wait_for_connections (input : RunInput) (schedule : List ℕ) :
    ∀ w ∈ (input.after schedule).components, w.phase.isPolling = true → ∃ timeout world,
      pollTimeout w.discardStale.deadlines w.discardStale.pacing w.world = .ok timeout world ∧
      (∀ c ∈ w.connections, ∀ time, w.Expects c time →
        ∃ nanos, timeout = some nanos ∧ w.world.clock + nanos ≤ max w.world.clock time) ∧
      ∀ nanos, timeout = some nanos → ∃ c ∈ w.connections, ∃ time, c.Wants w.timeout time ∧
        ∀ world', pollEvents timeout world = .ok [] world' → time ≤ world'.clock ∧
          ∀ now, world'.clock ≤ now → w.discardStale.SomeDue now := by
  intro w hw hpolling
  have hloops := loops_of_isPolling hpolling
  obtain ⟨htimekeeping, hpaces⟩ := input.pacesKept schedule w hw
  have hfirst := (input.inOrder schedule w hw).isFirst
  obtain ⟨timeout, world, htimeout, hreaches⟩ := w.pollTimeout_discardStale
  refine ⟨timeout, world, htimeout, ?_, ?_⟩
  · intro c hc time hexpects
    obtain ⟨i, hi⟩ := List.getElem?_of_mem hc
    have hlive : time ∈ w.liveTimes := by
      obtain ⟨hopen, ⟨hnext, hnever⟩ | ⟨hpace, hahead⟩⟩ := hexpects
      · exact htimekeeping.mem_liveTimes hloops hi hopen hnever hnext
      · exact hpaces.mem_liveTimes hloops hi hpace hahead
    obtain ⟨first, hsome, hle⟩ := hfirst.exists_le hlive
    have hasTimeout : timeout ≠ none := fun hnone => by
      rw [hreaches.none_iff.mp hnone] at hsome
      cases hsome
    obtain ⟨nanos, rfl⟩ := Option.ne_none_iff_exists'.mp hasTimeout
    have hnotLate := hreaches.notLate first hsome nanos rfl
    exact ⟨nanos, rfl, by omega⟩
  · rintro nanos rfl
    obtain ⟨first, hsome⟩ := Option.ne_none_iff_exists'.mp fun hnone =>
      Option.some_ne_none nanos (hreaches.none_iff.mpr hnone)
    rw [hsome] at hfirst
    obtain ⟨c, hc, hwants⟩ := htimekeeping.exists_wants hloops hfirst.1
    refine ⟨c, hc, first, hwants, fun world' hidle => ?_⟩
    have hslept := (ensures_pollEvents (some nanos) world).of_ok hidle rfl
    have henough := hreaches.enough first hsome nanos rfl
    rw [Option.getD_some] at hslept
    exact ⟨by omega, fun now hnow => someDue_of_first hsome (by omega)⟩

/-- A poll before the first request is sent, and one before the pace of the second. -/
theorem polls_wait_for_connections_sample :
    (∃ w ∈ (closingRun.after (List.replicate 3 0)).components, ∃ c ∈ w.connections,
      c.nextDeadline w.timeout = some (10 ^ 9) ∧ ∃ nanos world,
        pollTimeout w.discardStale.deadlines w.discardStale.pacing w.world =
          .ok (some nanos) world ∧ w.world.clock + nanos ≤ max w.world.clock (10 ^ 9)) ∧
    ∃ w ∈ (closingRun.after (List.replicate 8 0)).components, ∃ c ∈ w.connections,
      c.pacingDeadline = some (10 ^ 9) ∧ ∃ nanos world,
        pollTimeout w.discardStale.deadlines w.discardStale.pacing w.world =
          .ok (some nanos) world ∧ w.world.clock + nanos ≤ max w.world.clock (10 ^ 9) := by
  constructor
  · have hdeadline : ∃ w ∈ (closingRun.after (List.replicate 3 0)).components,
        w.phase.isPolling = true ∧ ∃ c ∈ w.connections, c.done = false ∧
          c.nextDeadline w.timeout = some (10 ^ 9) ∧ ∀ h ∈ c.history, h.isReconnect = false := by
      decide +kernel
    obtain ⟨w, hw, hpolling, c, hc, hopen, hnext, hnever⟩ := hdeadline
    obtain ⟨timeout, world, htimeout, hnotLate, -⟩ :=
      polls_wait_for_connections closingRun _ w hw hpolling
    obtain ⟨nanos, rfl, hle⟩ := hnotLate c hc _ ⟨hopen, Or.inl ⟨hnext, hnever⟩⟩
    exact ⟨w, hw, c, hc, hnext, nanos, world, htimeout, hle⟩
  · have hpace : ∃ w ∈ (closingRun.after (List.replicate 8 0)).components,
        w.phase.isPolling = true ∧ ∃ c ∈ w.connections, c.done = false ∧
          c.pacingDeadline = some (10 ^ 9) ∧ w.world.clock < 10 ^ 9 := by
      decide +kernel
    obtain ⟨w, hw, hpolling, c, hc, hopen, hpace, hahead⟩ := hpace
    obtain ⟨timeout, world, htimeout, hnotLate, -⟩ :=
      polls_wait_for_connections closingRun _ w hw hpolling
    obtain ⟨nanos, rfl, hle⟩ := hnotLate c hc _ ⟨hopen, Or.inr ⟨hpace, hahead⟩⟩
    exact ⟨w, hw, c, hc, hpace, nanos, world, htimeout, hle⟩

end RunInput

end Rload
