import Rload.RunInvariants

/-!
# The handler of a step

A step of a worker runs at most one handler. All that a step does to the connections is what
its handler does to one of them, and before the loop that a new one is added.
-/

namespace Rload
open StatefulPrograms

namespace Worker

/-- The handler that the next step runs, with the token of its connection. -/
def task? (w : Worker) : Option (ℕ × DeskM Unit) :=
  match w.phase with
  | .handling (event :: _) => some (event.token, Desk.handleEvent event.token w.timeout event)
  | .expiring now =>
    match due now w.deadlines with
    | none => none
    | some (t, _) =>
      if isStale w.connections t then none
      else some (t.token, Desk.handleExpired t.token w.timeout)
  | .resuming now =>
    match due now w.pacing with
    | none => none
    | some (t, _) =>
      if isStale w.connections t then none else some (t.token, Desk.handlePace)
  | _ => none

variable {w : Worker}

/-- What a handler is for. -/
theorem task_cases {token : ℕ} {handler : DeskM Unit} (h : w.task? = some (token, handler)) :
    (∃ event, handler = Desk.handleEvent token w.timeout event) ∨
      handler = Desk.handleExpired token w.timeout ∨ handler = Desk.handlePace := by
  unfold task? at h
  split at h
  · cases h
    exact Or.inl ⟨_, rfl⟩
  · split at h
    · cases h
    · split at h
      · cases h
      · cases h
        exact Or.inr (Or.inl rfl)
  · split at h
    · cases h
    · split at h
      · cases h
      · cases h
        exact Or.inr (Or.inr rfl)
  · cases h

theorem step_of_task {token : ℕ} {handler : DeskM Unit} (h : w.task? = some (token, handler)) :
    ∃ phase deadlines pacing, w.step =
      { w with phase := phase, deadlines := deadlines, pacing := pacing }.work token handler := by
  unfold task? at h
  split at h
  · rename_i event events hphase
    cases h
    refine ⟨.handling events, w.deadlines, w.pacing, ?_⟩
    simp only [step, hphase]
    rfl
  · rename_i now hphase
    split at h
    · cases h
    · rename_i t deadlines hdue
      split at h
      · cases h
      · rename_i hstale
        cases h
        refine ⟨w.phase, deadlines, w.pacing, ?_⟩
        simp only [step, hphase, hdue]
        rw [if_neg hstale]
  · rename_i now hphase
    split at h
    · cases h
    · rename_i t pacing hdue
      split at h
      · cases h
      · rename_i hstale
        cases h
        refine ⟨w.phase, w.deadlines, pacing, ?_⟩
        simp only [step, hphase, hdue]
        rw [if_neg hstale]
  · cases h

/-- The connection that is made before the loop. -/
structure Grows (w w' : Worker) : Prop where
  loops : w.phase.loops = false
  connections_eq : ∃ limit drawn addressIndex now, now ≤ w'.world.clock ∧
    w'.connections = w.connections ++
      [(Connection.connected w.addresses limit w.tls drawn addressIndex now).watch (some ⟨true⟩)]

/-- A handler has run on a connection. -/
structure Works (w w' : Worker) (token : ℕ) (handler : DeskM Unit) (c : Connection) (d d' : Desk) :
    Prop where
  task_eq : w.task? = some (token, handler)
  connection_eq : w.connections[token]? = some c
  start : d.connection = c ∧ d.world = w.world
  run : handler d = .ok () d'
  connections_eq : w'.connections = w.connections.set token d'.connection
  world_eq : w'.world = d'.world

theorem Works.moves {w' : Worker} {token : ℕ} {handler : DeskM Unit} {c : Connection}
    {d d' : Desk} (h : w.Works w' token handler c d d') :
    Connection.Moves w.world.clock c w'.world.clock d'.connection := by
  obtain ⟨htask, -, ⟨rfl, hworld⟩, hrun, -, hworld'⟩ := h
  rw [← hworld, hworld']
  obtain ⟨event, rfl⟩ | rfl | rfl := task_cases htask
  · exact ((Desk.handleEvent_takes event).of_ok hrun).moves
  · exact (Desk.handleExpired_handles.of_ok hrun).moves
  · have hturn : Desk.Turn token w.timeout d d' := Desk.handlePace_handles.of_ok hrun
    exact hturn.moves

/-- A connection after a step was there before it, is new, or a handler has run on it. -/
inductive Arises (w w' : Worker) (c' : Connection) : Prop
  | stayed (h : c' ∈ w.connections)
  | made {limit : ConnectionLimit} {drawn : Drawn} {addressIndex now : ℕ}
      (h : c' = (Connection.connected w.addresses limit w.tls drawn addressIndex now).watch
        (some ⟨true⟩))
  | worked {token : ℕ} {handler : DeskM Unit} {c : Connection} {d d' : Desk}
      (h : w.Works w' token handler c d d') (hc' : c' = d'.connection)

theorem step_of_idle (h : w.task? = none) :
    w.step.connections = w.connections ∨ w.Grows w.step := by
  cases hphase : w.phase with
  | opening limits =>
    simp only [step, hphase]
    unfold openPoll
    split
    · exact Or.inl rfl
    · exact Or.inl rfl
  | starting limits attempts =>
    have hmove := step_moves (w := w) (by rw [hphase]; rfl)
    have hloops : w.phase.loops = false := by rw [hphase]; rfl
    generalize w.step = w' at hmove ⊢
    cases hmove with
    | halted hhalts => exact Or.inl hhalts.connections_eq
    | @connected limit limits attempts drawn addressIndex now world hphase hw hfrom hto =>
      exact Or.inr ⟨hloops, limit, drawn, addressIndex, now, hto, rfl⟩
    | idled hidles => exact Or.inl hidles.connections_eq
    | handled hidles =>
      rw [hidles.loops] at hloops
      cases hloops
    | expired hidles =>
      rw [hidles.loops] at hloops
      cases hloops
    | _ => exact Or.inl rfl
  | polling =>
    simp only [step, hphase]
    split
    · exact Or.inl rfl
    · unfold poll
      simp only
      split
      · exact Or.inl rfl
      · exact Or.inl rfl
  | handling events =>
    cases events with
    | nil =>
      simp only [step, hphase]
      exact Or.inl rfl
    | cons event events =>
      simp only [task?, hphase] at h
      cases h
  | expiring now =>
    simp only [task?, hphase] at h
    simp only [step, hphase]
    split
    · exact Or.inl rfl
    · rename_i t deadlines hdue
      rw [hdue] at h
      simp only at h
      split
      · exact Or.inl rfl
      · rename_i hstale
        rw [if_neg hstale] at h
        cases h
  | resuming now =>
    simp only [task?, hphase] at h
    simp only [step, hphase]
    split
    · exact Or.inl rfl
    · rename_i t pacing hdue
      rw [hdue] at h
      simp only at h
      split
      · exact Or.inl rfl
      · rename_i hstale
        rw [if_neg hstale] at h
        cases h
  | finished result => exact Or.inl (by rw [step_of_finished (by rw [hphase]; rfl)])

/-- What a step does to the connections. -/
theorem step_changes (w : Worker) :
    w.step.connections = w.connections ∨ w.Grows w.step ∨
      ∃ token handler c d d', w.Works w.step token handler c d d' := by
  cases htask : w.task? with
  | none => exact (step_of_idle htask).imp_right Or.inl
  | some task =>
    obtain ⟨token, handler⟩ := task
    obtain ⟨phase, deadlines, pacing, hstep⟩ := step_of_task htask
    rw [hstep]
    unfold work
    split
    · exact Or.inl rfl
    · rename_i c hc
      split
      · exact Or.inl rfl
      · rename_i d hd
        have hworks : w.Works (withDesk token d
            { w with phase := phase, deadlines := deadlines, pacing := pacing }) token handler c
            (desk { w with phase := phase, deadlines := deadlines, pacing := pacing } c) d :=
          ⟨htask, hc, ⟨rfl, rfl⟩, hd, rfl, rfl⟩
        exact Or.inr (Or.inr ⟨token, handler, c, _, d, hworks⟩)

theorem step_arises (w : Worker) : ∀ c' ∈ w.step.connections, w.Arises w.step c' := by
  intro c' hc'
  obtain hsame | hgrows | ⟨token, handler, c, d, d', hworks⟩ := w.step_changes
  · exact .stayed (hsame ▸ hc')
  · obtain ⟨limit, drawn, addressIndex, now, -, hgrown⟩ := hgrows.connections_eq
    rw [hgrown] at hc'
    cases List.mem_append.mp hc' with
    | inl hmem => exact .stayed hmem
    | inr hnew => exact .made (List.mem_singleton.mp hnew)
  · rw [hworks.connections_eq] at hc'
    cases List.mem_or_eq_of_mem_set hc' with
    | inl hmem => exact .stayed hmem
    | inr heq => exact .worked hworks heq

/-- What a worker is given for all its connections. -/
structure Settings where
  addresses : List SocketAddr
  timeout : ℕ
  tls : Bool

def settings (w : Worker) : Settings := ⟨w.addresses, w.timeout, w.tls⟩

theorem work_settings (token : ℕ) (handler : DeskM Unit) (w : Worker) :
    (w.work token handler).settings = w.settings := by
  unfold work
  split
  · rfl
  · split <;> rfl

theorem readClock_settings (next : ℕ → Phase) (w : Worker) :
    (w.readClock next).settings = w.settings := by
  unfold readClock
  split <;> rfl

theorem startNext_settings (limit : ConnectionLimit) (limits : List ConnectionLimit)
    (attempts : ℕ) (w : Worker) : (startNext limit limits attempts w).settings = w.settings := by
  unfold startNext attemptFailed
  split
  · split
    · simp only [now_eq, sleep_eq]
      split
      · split <;> rfl
      · split <;> rfl
    · rfl
  · split <;> rfl

/-- No step changes the settings. -/
theorem step_settings (w : Worker) : w.step.settings = w.settings := by
  cases hphase : w.phase with
  | opening limits =>
    simp only [step, hphase, openPoll]
    split <;> rfl
  | starting limits attempts =>
    cases limits with
    | nil =>
      simp only [step, hphase]
      rfl
    | cons limit limits =>
      simp only [step, hphase]
      exact startNext_settings limit limits attempts w
  | polling =>
    simp only [step, hphase, poll]
    split
    · rfl
    · split <;> rfl
  | handling events =>
    cases events with
    | nil =>
      simp only [step, hphase]
      exact readClock_settings _ w
    | cons event events =>
      simp only [step, hphase]
      exact work_settings _ _ _
  | expiring now =>
    simp only [step, hphase]
    split
    · exact readClock_settings _ w
    · split
      · rfl
      · exact work_settings _ _ _
  | resuming now =>
    simp only [step, hphase]
    split
    · rfl
    · split
      · rfl
      · exact work_settings _ _ _
  | finished result => rw [step_of_finished (by rw [hphase]; rfl)]

end Worker

end Rload
