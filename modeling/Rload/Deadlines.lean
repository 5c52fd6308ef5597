import Rload.TimerQueues

/-!
# Deadlines in a run

In every state of the loop of a worker a deadline of the current generation is what its
connection waits for now. The other way round, a connection that could expire has such a
deadline, unless it was opened again at a pace.
-/

namespace Rload
open Connection

/-- The top of the loop. -/
def Phase.isPolling : Phase → Bool
  | .polling => true
  | _ => false

namespace Worker

theorem mem_scheduleAll {timeout : ℕ} {t : Timer} (l : List (Connection × ℕ))
    (q : TimerQueue × TimerQueue) :
    t ∈ (l.foldl (fun q (c, token) => (Desk.scheduledDeadlines token timeout c q.1,
        Desk.scheduledPacing token c q.2)) q).1 ↔
      t ∈ q.1 ∨ ∃ p ∈ l, t.token = p.2 ∧ t.generation = p.1.timerGeneration ∧
        p.1.nextDeadline timeout = some t.time := by
  induction l generalizing q with
  | nil => simp
  | cons p l ih =>
    rw [List.foldl_cons, ih, Desk.mem_scheduledDeadlines, or_assoc]
    simp only [List.mem_cons, exists_eq_or_imp]

theorem loops_of_instant {phase : Phase} {now : ℕ} (h : phase.instant = some now) :
    phase.loops = true := by
  cases phase with
  | expiring _ => rfl
  | resuming _ => rfl
  | _ => cases h

/-- What the loop keeps of its deadlines. -/
structure Timekeeping (w : Worker) : Prop where
  empty : w.phase.loops = false → w.phase.isFinished = false → w.deadlines = []
  timed : w.phase.loops = true → ∀ i c, w.connections[i]? = some c →
    Desk.Timed i w.timeout c w.deadlines ∧ Desk.Covered i c w.deadlines
  owned : w.phase.loops = true → ∀ t ∈ w.deadlines, t.token < w.connections.length
  instant : ∀ now, w.phase.instant = some now → now ≤ w.world.clock

variable {w w₁ w' : Worker} {P : Timer → Prop}

theorem timekeeping_of_finished (h : w.phase.isFinished = true) : w.Timekeeping := by
  cases hphase : w.phase with
  | finished result =>
    refine ⟨fun _ hrunning => ?_, fun hloops => ?_, fun hloops => ?_, fun now hnow => ?_⟩
    · rw [h] at hrunning
      cases hrunning
    · rw [hphase] at hloops
      cases hloops
    · rw [hphase] at hloops
      cases hloops
    · rw [hphase] at hnow
      cases hnow
  | _ =>
    rw [hphase] at h
    cases h

/-- Before the loop there are no deadlines. -/
theorem Timekeeping.starting (h : w.Timekeeping) (hloops : w.phase.loops = false)
    (hrunning : w.phase.isFinished = false) (hdeadlines : w'.deadlines = w.deadlines)
    (hphase : w'.phase.loops = false) : w'.Timekeeping where
  empty _ _ := hdeadlines.trans (h.empty hloops hrunning)
  timed hloops' := by
    rw [hphase] at hloops'
    cases hloops'
  owned hloops' := by
    rw [hphase] at hloops'
    cases hloops'
  instant now hnow := by
    rw [loops_of_instant hnow] at hphase
    cases hphase

theorem Timekeeping.mem_entered (h : w.Timekeeping) (hloops : w.phase.loops = false)
    (hrunning : w.phase.isFinished = false) (t : Timer) :
    t ∈ w.enterLoop.deadlines ↔ ∃ p ∈ w.connections.zipIdx, t.token = p.2 ∧
      t.generation = p.1.timerGeneration ∧ p.1.nextDeadline w.timeout = some t.time := by
  have hall := @mem_scheduleAll w.timeout t w.connections.zipIdx (w.deadlines, w.pacing)
  rw [h.empty hloops hrunning] at hall
  refine Iff.trans ?_ (hall.trans (by simp))
  rw [enterLoop, scheduleAll, h.empty hloops hrunning]

theorem Timekeeping.entered (h : w.Timekeeping) (hloops : w.phase.loops = false)
    (hrunning : w.phase.isFinished = false) : w.enterLoop.Timekeeping where
  empty hloops' := by cases hloops'
  timed _ i c hc := by
    have hmem := h.mem_entered hloops hrunning
    have hc : w.connections[i]? = some c := hc
    constructor
    · intro t ht htoken
      obtain ⟨⟨c', j⟩, hp, hj, hgeneration, hnext⟩ := (hmem t).mp ht
      rw [List.mem_zipIdx_iff_getElem?] at hp
      obtain rfl : j = i := hj.symm.trans htoken
      obtain rfl : c' = c := Option.some_injective _ (hp.symm.trans hc)
      exact ⟨hgeneration.le, fun _ => hnext⟩
    · intro _ hawaiting _
      obtain ⟨time, htime⟩ := nextDeadline_isSome w.timeout hawaiting
      refine ⟨⟨time, i, c.timerGeneration⟩, (hmem _).mpr ⟨(c, i), ?_, rfl, rfl, htime⟩, rfl, rfl⟩
      exact List.mem_zipIdx_iff_getElem?.mpr hc
  owned _ t ht := by
    obtain ⟨⟨c, i⟩, hp, htoken, -⟩ := (h.mem_entered hloops hrunning t).mp ht
    rw [List.mem_zipIdx_iff_getElem?] at hp
    exact htoken ▸ (List.getElem?_eq_some_iff.mp hp).1
  instant now hnow := by cases hnow

/-- The deadlines that are left of a connection whose deadlines were not taken. -/
theorem Timekeeping.idles {i : ℕ} {c : Connection} (h : w.Timekeeping) (hidles : Idles P w w₁)
    (hc : w₁.connections[i]? = some c) :
    Desk.Timed i w₁.timeout c w₁.deadlines ∧
      ((∀ t, P t → t.token = i → t.generation = c.timerGeneration → c.done = true) →
        Desk.Covered i c w₁.deadlines) := by
  rw [hidles.connections_eq] at hc
  obtain ⟨htimed, hcovered⟩ := h.timed hidles.loops i c hc
  rw [hidles.timeout_eq]
  refine ⟨htimed.subset hidles.kept, fun hP hopen hawaiting hnever => ?_⟩
  obtain ⟨t, ht, htoken, hgeneration⟩ := hcovered hopen hawaiting hnever
  cases hidles.dropped t ht with
  | inl hkept => exact ⟨t, hkept, htoken, hgeneration⟩
  | inr hdropped =>
    rw [hP t hdropped htoken hgeneration] at hopen
    cases hopen

/-- The deadlines after a handler, given those of its connection. -/
theorem Timekeeping.turned {token : ℕ} {c : Connection} {d : Desk} (h : w.Timekeeping)
    (hidles : Idles P w w₁) (hc : w₁.connections[token]? = some c)
    (hothers : ∀ i c, i ≠ token → w₁.connections[i]? = some c → Desk.Covered i c w₁.deadlines)
    (hle : w₁.world.clock ≤ d.world.clock)
    (hmem : ∀ t, t.token ≠ token → (t ∈ d.deadlines ↔ t ∈ w₁.deadlines))
    (htimed : Desk.Timed token w₁.timeout d.connection d.deadlines)
    (hcovered : Desk.Covered token d.connection d.deadlines) :
    (w₁.withDesk token d).Timekeeping where
  empty hloops _ := absurd (hidles.loops_after.symm.trans hloops) (by simp)
  timed _ i c' hc' := by
    by_cases hi : i = token
    · subst hi
      have hset : (w₁.connections.set i d.connection)[i]? = some d.connection :=
        List.getElem?_set_self (List.getElem?_eq_some_iff.mp hc).1
      obtain rfl : d.connection = c' := Option.some_injective _ (hset.symm.trans hc')
      exact ⟨htimed, hcovered⟩
    · have hc' : (w₁.connections.set token d.connection)[i]? = some c' := hc'
      rw [List.getElem?_set_ne (Ne.symm hi)] at hc'
      have htoken : ∀ t : Timer, t.token = i → t.token ≠ token := fun t ht => ht ▸ hi
      refine ⟨fun t ht hti => ?_, fun hopen hawaiting hnever => ?_⟩
      · exact (h.idles hidles hc').1 t ((hmem t (htoken t hti)).mp ht) hti
      · obtain ⟨t, ht, hti, hgeneration⟩ := hothers i c' hi hc' hopen hawaiting hnever
        exact ⟨t, (hmem t (htoken t hti)).mpr ht, hti, hgeneration⟩
  owned _ t ht := by
    have hlength : (w₁.withDesk token d).connections.length = w.connections.length :=
      List.length_set.trans (congrArg List.length hidles.connections_eq)
    rw [hlength]
    by_cases htoken : t.token = token
    · rw [hidles.connections_eq] at hc
      exact htoken ▸ (List.getElem?_eq_some_iff.mp hc).1
    · exact h.owned hidles.loops t (hidles.kept t ((hmem t htoken).mp ht))
  instant now hnow := by
    cases hidles.instant now hnow with
    | inl hbefore => exact (h.instant now hbefore).trans (hidles.later.clock_le.trans hle)
    | inr hafter => exact hafter.trans hle

theorem stale_done {connections : List Connection} {t : Timer} {c : Connection}
    (hstale : isStale connections t = true) (hc : connections[t.token]? = some c)
    (hgeneration : t.generation = c.timerGeneration) : c.done = true := by
  rw [isStale, hc] at hstale
  simpa [hgeneration] using hstale

theorem Timekeeping.fresh {i : ℕ} {c : Connection} (h : w.Timekeeping)
    (hidles : Idles (fun t => isStale w.connections t) w w₁) (hc : w₁.connections[i]? = some c) :
    Desk.Covered i c w₁.deadlines := by
  apply (h.idles hidles hc).2
  intro t hstale htoken hgeneration
  rw [hidles.connections_eq, ← htoken] at hc
  exact stale_done hstale hc hgeneration

theorem invariant_timekeeping :
    Invariant fun w => (∀ c ∈ w.connections, c.Paced w.world.clock) ∧ w.Timekeeping where
  sharing w sequence h := ⟨h.1, h.2.empty, h.2.timed, h.2.owned, h.2.instant⟩
  move w w' hrunning h hmove := by
    refine ⟨(invariant_connections invariant_paced).move w w' hrunning h.1 hmove, ?_⟩
    obtain ⟨hpaced, h⟩ := h
    have paced : ∀ {Q : Timer → Prop} {w₁ : Worker} {token : ℕ} {c : Connection}, Idles Q w w₁ →
        w₁.connections[token]? = some c → c.Paced w₁.world.clock := by
      intro Q w₁ token c hidles hc
      rw [hidles.connections_eq] at hc
      exact invariant_paced.time _ _ c hidles.later.clock_le (hpaced c (List.mem_of_getElem? hc))
    cases hmove with
    | halted hhalts => exact timekeeping_of_finished (by rw [hhalts.phase_eq]; rfl)
    | opened hphase => exact h.starting (by rw [hphase]; rfl) hrunning rfl rfl
    | connected hphase => exact h.starting (by rw [hphase]; rfl) hrunning rfl rfl
    | refused hphase => exact h.starting (by rw [hphase]; rfl) hrunning rfl rfl
    | gaveUp hphase => exact h.starting (by rw [hphase]; rfl) hrunning rfl rfl
    | ranOut hphase => exact timekeeping_of_finished rfl
    | entered hphase => exact h.entered (by rw [hphase]; rfl) hrunning
    | ended hphase hactive => exact timekeeping_of_finished rfl
    | idled hidles =>
      refine ⟨fun hloops => ?_, fun _ i c hc => ?_, fun _ t ht => ?_, fun now hnow => ?_⟩
      · rw [hidles.loops_after] at hloops
        cases hloops
      · exact ⟨(h.idles hidles hc).1, h.fresh hidles hc⟩
      · exact hidles.connections_eq ▸ h.owned hidles.loops t (hidles.kept t ht)
      · cases hidles.instant now hnow with
        | inl hbefore => exact (h.instant now hbefore).trans hidles.later.clock_le
        | inr hafter => exact hafter
    | @handled w₁ token c d hidles hc hturns =>
      have hpaced := paced hidles hc
      apply h.turned hidles hc
      · exact fun i c _ hc => h.fresh hidles hc
      · exact hturns.steady.clock_le
      · exact fun t ht => hturns.mem_iff ht
      · exact hturns.timed hpaced (h.idles hidles hc).1
      · exact hturns.covered hpaced (h.fresh hidles hc)
    | @expired w₁ token now t c d hidles hphase ht hdue htoken hgeneration hc hdone hsettles =>
      have hpaced := paced hidles hc
      have hq := hsettles.deadlines_eq.imp And.left id
      apply h.turned hidles hc
      · intro i c hi hc
        apply (h.idles hidles hc).2
        intro t htoken hti
        exact absurd (hti.symm.trans htoken) hi
      · exact hsettles.steady.clock_le
      · exact fun t ht => Desk.mem_of_deadlines ht hq
      · exact Desk.timed_of_deadlines (h.idles hidles hc).1 (hsettles.follows hpaced) hq
      · exact hsettles.covered

end Worker

namespace Desk

variable {token timeout : ℕ} {n : FailureCounts} {allowed : Counter → Prop} {d d₁ d' : Desk}

theorem Touches.timeouts_eq (h : Touches d n d₁) :
    d₁.summary.socketErrors.timeout = d.summary.socketErrors.timeout :=
  congrArg (·.socketErrors.timeout) h.summary_eq

/-- A timeout is counted where this is allowed. -/
theorem AddsOne.timeouts {counter : Counter} {f : SocketErrors → SocketErrors}
    (hf : AddsOne counter f) (hallowed : allowed counter) (e : SocketErrors) :
    (f e).timeout = e.timeout ∨ allowed .timeout := by
  have hcounts := congrFun (hf e) .timeout
  by_cases h : counter = .timeout
  · exact Or.inr (h ▸ hallowed)
  · rw [Pi.add_apply, Pi.single_eq_of_ne (Ne.symm h), add_zero] at hcounts
    exact Or.inl hcounts

theorem Settles.timeouts (h : Settles token timeout allowed d d') :
    d'.summary.socketErrors.timeout = d.summary.socketErrors.timeout ∨ allowed .timeout := by
  cases h with
  | cameBack h hallowed hf hassign hback hw =>
    rw [← h.timeouts_eq]
    exact hf.timeouts hallowed _
  | gaveUp h hallowed hf hup hw =>
    rw [← h.timeouts_eq]
    exact hf.timeouts hallowed _
  | ranOut h hallowed hf hlimit hw =>
    rw [← h.timeouts_eq]
    exact hf.timeouts hallowed _
  | stopped h hstop hw => exact Or.inl h.timeouts_eq

theorem Turn.timeouts_eq (h : Turn token timeout d d') :
    d'.summary.socketErrors.timeout = d.summary.socketErrors.timeout := by
  cases h with
  | rested h => exact h.timeouts_eq
  | begun h => exact h.timeouts_eq
  | deferred h hf hstarted hpace hw =>
    rw [← h.timeouts_eq]
    have htimeouts := @AddsOne.timeouts (· ≠ .timeout) .connect _ hf Counter.connect_ne_timeout
    exact (htimeouts _).resolve_right fun h => h rfl
  | settled h => exact h.timeouts.resolve_right fun h => h rfl
  | answeredLast => rfl
  | answeredNext => rfl
  | resumed => rfl

theorem Turns.timeouts_eq (h : Turns token timeout d d') :
    d'.summary.socketErrors.timeout = d.summary.socketErrors.timeout := by
  induction h with
  | refl => rfl
  | tail _ hturn ih => exact hturn.2.timeouts_eq.trans ih

end Desk

namespace Worker

variable {w w' : Worker}

/-- A deadline that would pass is for what its connection waits for. -/
def DeadlinesCurrent (w : Worker) : Prop :=
  w.phase.loops = true → ∀ t ∈ w.deadlines, ∀ c, w.connections[t.token]? = some c →
    t.generation = c.timerGeneration → c.done = false →
      c.awaitingPace = false ∧ c.nextDeadline w.timeout = some t.time

/-- A step that counts a timeout handles a request that was started a timeout ago. -/
def TimesOutLate (w : Worker) : Prop :=
  w.step.summary.socketErrors.timeout = w.summary.socketErrors.timeout ∨
    ∃ (token : ℕ) (c : Connection) (started : ℕ), w.connections[token]? = some c ∧
      c.started = some started ∧
      started + w.timeout ≤ w.world.clock ∧
        ∀ other : ℕ, other ≠ token → w.step.connections[other]? = w.connections[other]?

/-- The connections of a worker at a later time: where one is of the same generation, its timers
are for the same. -/
def Outlives (w w' : Worker) : Prop :=
  ∀ (token : ℕ) (c : Connection), w.connections[token]? = some c →
    ∃ c', w'.connections[token]? = some c' ∧ Follows c c'

theorem Timekeeping.deadlinesCurrent (h : w.Timekeeping) : w.DeadlinesCurrent := by
  intro hloops t ht c hc hgeneration _
  have hnext := ((h.timed hloops t.token c hc).1 t ht rfl).2 hgeneration
  exact ⟨awaitingPace_of_nextDeadline hnext, hnext⟩

theorem nextDeadline_of_started {c : Connection} {timeout time started : ℕ}
    (hstarted : c.started = some started) (h : c.nextDeadline timeout = some time) :
    time = started + timeout := by
  rw [nextDeadline, awaitingPace_of_nextDeadline h, hstarted] at h
  exact (Option.some_injective _ h).symm

theorem Timekeeping.timesOutLate (h : w.Timekeeping) : w.TimesOutLate := by
  cases hrunning : w.phase.isFinished with
  | true => exact Or.inl (by rw [step_of_finished hrunning])
  | false =>
    have hmove := step_moves hrunning
    unfold TimesOutLate
    generalize w.step = w' at hmove
    cases hmove with
    | halted hhalts => exact Or.inl (by rw [hhalts.summary_eq])
    | opened => exact Or.inl rfl
    | connected => exact Or.inl rfl
    | refused => exact Or.inl rfl
    | gaveUp => exact Or.inl rfl
    | ranOut => exact Or.inl rfl
    | entered => exact Or.inl rfl
    | ended => exact Or.inl rfl
    | idled hidles => exact Or.inl (by rw [hidles.summary_eq])
    | handled hidles hc hturns =>
      have htimeouts := hturns.timeouts_eq
      rw [desk, hidles.summary_eq] at htimeouts
      exact Or.inl htimeouts
    | @expired w₁ token now t c d hidles hphase ht hdue htoken hgeneration hc hdone hsettles =>
      have htimeouts := hsettles.timeouts
      rw [desk, hidles.summary_eq] at htimeouts
      cases htimeouts with
      | inl hsame => exact Or.inl hsame
      | inr hallowed =>
        obtain ⟨started, hstarted⟩ := Option.isSome_iff_exists.mp (hallowed rfl)
        rw [hidles.connections_eq] at hc
        have hnext := ((h.timed hidles.loops token c hc).1 t ht htoken).2 hgeneration
        have htime := nextDeadline_of_started hstarted hnext
        refine Or.inr ⟨token, c, started, hc, hstarted, ?_, fun other hother => ?_⟩
        · rw [← htime]
          exact hdue.trans (h.instant now (hphase ▸ rfl))
        · rw [← hidles.connections_eq]
          exact List.getElem?_set_ne (Ne.symm hother)

/-- Each connection that could expire has a deadline for what it waits for now. -/
def CoversConnections (w : Worker) : Prop :=
  ∀ p ∈ w.connections.zipIdx, p.1.done = false → p.1.awaitingPace = false →
    ∃ t ∈ w.deadlines, t.token = p.2 ∧ t.generation = p.1.timerGeneration ∧
      p.1.nextDeadline w.timeout = some t.time

instance (w : Worker) : Decidable w.CoversConnections :=
  inferInstanceAs (Decidable (∀ p ∈ w.connections.zipIdx, p.1.done = false →
    p.1.awaitingPace = false → ∃ t ∈ w.deadlines, t.token = p.2 ∧
      t.generation = p.1.timerGeneration ∧ p.1.nextDeadline w.timeout = some t.time))

theorem loops_of_isPolling (hpolling : w.phase.isPolling = true) : w.phase.loops = true := by
  cases hphase : w.phase with
  | polling => rfl
  | _ =>
    rw [hphase] at hpolling
    cases hpolling

theorem Timekeeping.coversConnections (h : w.Timekeeping) (hpolling : w.phase.isPolling = true)
    (hnever : ∀ c ∈ w.connections, ∀ h ∈ c.history, h.isReconnect = false) :
    w.CoversConnections := by
  have hloops := loops_of_isPolling hpolling
  rintro ⟨c, i⟩ hp hdone hawaiting
  have hc := List.mem_zipIdx_iff_getElem?.mp hp
  obtain ⟨htimed, hcovered⟩ := h.timed hloops i c hc
  obtain ⟨t, ht, htoken, hgeneration⟩ :=
    hcovered hdone hawaiting (hnever c (List.mem_of_getElem? hc))
  exact ⟨t, ht, htoken, hgeneration, (htimed t ht htoken).2 hgeneration⟩

theorem outlives_of_eq {w₀ : Worker} (h : w₀.Outlives w) (hc : w'.connections = w.connections) :
    w₀.Outlives w' := by
  intro token c hmem
  rw [hc]
  exact h token c hmem

theorem outlives_of_set {w₀ : Worker} {token : ℕ} {c c' : Connection} (h : w₀.Outlives w)
    (hc : w.connections[token]? = some c) (hfollows : Follows c c')
    (hset : w'.connections = w.connections.set token c') : w₀.Outlives w' := by
  intro i c₀ hc₀
  obtain ⟨c₁, hc₁, hfollows₁⟩ := h i c₀ hc₀
  rw [hset]
  by_cases hi : i = token
  · subst hi
    obtain rfl : c₁ = c := Option.some_injective _ (hc₁.symm.trans hc)
    exact ⟨c', List.getElem?_set_self (List.getElem?_eq_some_iff.mp hc).1,
      hfollows₁.trans hfollows⟩
  · exact ⟨c₁, by rw [List.getElem?_set_ne (Ne.symm hi), hc₁], hfollows₁⟩

theorem invariant_outlives (w₀ : Worker) :
    Invariant fun w => (∀ c ∈ w.connections, c.Paced w.world.clock) ∧ w₀.Outlives w where
  sharing w sequence h := h
  move w w' hrunning h hmove := by
    refine ⟨(invariant_connections invariant_paced).move w w' hrunning h.1 hmove, ?_⟩
    obtain ⟨hpaced, h⟩ := h
    have paced : ∀ {Q : Timer → Prop} {w₁ : Worker} {token : ℕ} {c : Connection}, Idles Q w w₁ →
        w.connections[token]? = some c → c.Paced w₁.world.clock := by
      intro Q w₁ token c hidles hc
      exact invariant_paced.time _ _ c hidles.later.clock_le (hpaced c (List.mem_of_getElem? hc))
    cases hmove with
    | halted hhalts => exact outlives_of_eq h hhalts.connections_eq
    | connected hphase =>
      intro token c hc
      obtain ⟨c', hc', hfollows⟩ := h token c hc
      have hlt := (List.getElem?_eq_some_iff.mp hc').1
      exact ⟨c', (List.getElem?_append_left hlt).trans hc', hfollows⟩
    | idled hidles => exact outlives_of_eq h hidles.connections_eq
    | @handled w₁ token c d hidles hc hturns =>
      have hset := congrArg (·.set token d.connection) hidles.connections_eq
      rw [hidles.connections_eq] at hc
      exact outlives_of_set h hc (hturns.follows (paced hidles hc)) hset
    | @expired w₁ token now t c d hidles hphase ht hdue htoken hgeneration hc hdone hsettles =>
      have hset := congrArg (·.set token d.connection) hidles.connections_eq
      rw [hidles.connections_eq] at hc
      exact outlives_of_set h hc (hsettles.follows (paced hidles hc)) hset
    | _ => exact outlives_of_eq h rfl

end Worker

namespace RunInput

theorem timekeeping_newWorker (input : RunInput) (limits : List ConnectionLimit) (worker : ℕ) :
    (∀ c ∈ (input.newWorker limits worker).connections,
      c.Paced (input.newWorker limits worker).world.clock) ∧
        (input.newWorker limits worker).Timekeeping := by
  refine ⟨?_, fun _ _ => rfl, fun hloops => ?_, fun hloops => ?_, fun now hnow => ?_⟩
  · intro c hc
    cases hc
  · cases hloops
  · cases hloops
  · cases hnow

theorem timekeeping (input : RunInput) (schedule : List ℕ) :
    ∀ w ∈ (input.after schedule).components,
      (∀ c ∈ w.connections, c.Paced w.world.clock) ∧ w.Timekeeping :=
  input.forall_worker Worker.invariant_timekeeping
    (fun limits _ worker => input.timekeeping_newWorker limits worker) schedule

/-- A deadline that is due and counts is for the request, the transport and the wait that its
connection had when it was scheduled, and no request times out early. -/
theorem deadlines_current (input : RunInput) (schedule more : List ℕ) :
    (∀ w ∈ (input.after schedule).components, w.DeadlinesCurrent ∧ w.TimesOutLate) ∧
      List.Forall₂ (fun w' w => w.Outlives w') (input.after (schedule ++ more)).components
        (input.after schedule).components := by
  refine ⟨fun w hw => ?_, ?_⟩
  · have htimekeeping := (input.timekeeping schedule w hw).2
    exact ⟨htimekeeping.deadlinesCurrent, htimekeeping.timesOutLate⟩
  · have hbefore : List.Forall₂ (fun w' w : Worker =>
        (∀ c ∈ w'.connections, c.Paced w'.world.clock) ∧ w.Outlives w')
        (input.after schedule).components (input.after schedule).components := by
      rw [List.forall₂_same]
      intro w hw
      refine ⟨(input.timekeeping schedule w hw).1, fun token c hc => ⟨c, hc, .refl c⟩⟩
    have hrun := SharedResource.forall₂_run Worker.shareStep
      (fun w sequence w₀ h => (Worker.invariant_outlives w₀).shareStep w sequence h) hbefore more
    have happend : input.after (schedule ++ more) =
        SharedResource.run Worker.shareStep (input.after schedule) more := List.foldl_append
    rw [happend]
    exact hrun.imp fun w' w h => h.2

/-- Where no connection was opened again at its pace, all that could expire have deadlines. -/
theorem connections_covered (input : RunInput) (schedule : List ℕ) :
    ∀ w ∈ (input.after schedule).components, w.phase.isPolling = true →
      (∀ c ∈ w.connections, ∀ h ∈ c.history, h.isReconnect = false) → w.CoversConnections :=
  fun w hw => (input.timekeeping schedule w hw).2.coversConnections

theorem connections_covered_sample :
    (promptRun.after (List.replicate 3 0)).components.length = 1 ∧
      ∀ w ∈ (promptRun.after (List.replicate 3 0)).components,
        w.connections.length = 1 ∧ w.CoversConnections := by
  have hpolling : (promptRun.after (List.replicate 3 0)).components.length = 1 ∧
      ∀ w ∈ (promptRun.after (List.replicate 3 0)).components, w.connections.length = 1 ∧
        w.phase.isPolling = true ∧
          ∀ c ∈ w.connections, ∀ h ∈ c.history, h.isReconnect = false := by
    decide +kernel
  refine ⟨hpolling.1, fun w hw => ⟨(hpolling.2 w hw).1, ?_⟩⟩
  exact connections_covered promptRun _ w hw (hpolling.2 w hw).2.1 (hpolling.2 w hw).2.2

/-- The connection that was opened again at its pace has no deadline at all. -/
theorem reconnected_uncovered :
    ¬ ∀ (input : RunInput) (schedule : List ℕ), input.prepared.config.validate = .ok () →
      ∀ w ∈ (input.after schedule).components, w.phase.isPolling = true → w.CoversConnections := by
  intro h
  have hcovers := h closingRun (List.replicate 18 0) rfl
  exact absurd hcovers (by decide +kernel)

end RunInput

end Rload
