import Rload.EstablishedConnections
import Rload.HandlerSubtractions
import Rload.WorkerTasks

/-!
# The active connections

At the top of its loop a worker counts the connections that are not done. Each is subtracted
once, in the step that makes it done, and never from zero.
-/

namespace Rload
open StatefulPrograms Connection

namespace Worker

variable {w : Worker} {token : ℕ} {handler : DeskM Unit} {c : Connection}

theorem loops_of_task (h : w.task? = some (token, handler)) : w.phase.loops = true := by
  unfold task? at h
  split at h
  · rename_i hphase
    rw [hphase]
    rfl
  · rename_i hphase
    rw [hphase]
    rfl
  · rename_i hphase
    rw [hphase]
    rfl
  · cases h

/-- Only an event may be for a connection that is done. -/
theorem cases_of_task (h : w.task? = some (token, handler)) (hc : w.connections[token]? = some c) :
    (∃ event, handler = Desk.handleEvent token w.timeout event) ∨
      c.done = false ∧
        (handler = Desk.handleExpired token w.timeout ∨ handler = Desk.handlePace) := by
  unfold task? at h
  split at h
  · cases h
    exact Or.inl ⟨_, rfl⟩
  · split at h
    · cases h
    · split at h
      · cases h
      · rename_i hfresh
        cases h
        exact Or.inr ⟨not_stale_not_done (Bool.not_eq_true _ ▸ hfresh) hc, Or.inl rfl⟩
  · split at h
    · cases h
    · split at h
      · cases h
      · rename_i hfresh
        cases h
        exact Or.inr ⟨not_stale_not_done (Bool.not_eq_true _ ▸ hfresh) hc, Or.inr rfl⟩
  · cases h

/-- What the handler of a step does to the counter. -/
theorem tallies_of_task {d d' : Desk} (h : w.task? = some (token, handler))
    (hc : w.connections[token]? = some c) (hd : d.connection = c) (hrun : handler d = .ok () d') :
    d' = d ∨ c.done = false ∧ Desk.Tallies d d' := by
  subst hd
  obtain ⟨event, rfl⟩ | ⟨hopen, rfl | rfl⟩ := cases_of_task h hc
  · exact ((Desk.handleEvent_takes event).of_ok hrun).tallies
  · exact Or.inr ⟨hopen, (Desk.handleExpired_handles.of_ok hrun).tallies hopen⟩
  · have hturn : Desk.Turn token w.timeout d d' := Desk.handlePace_handles.of_ok hrun
    exact Or.inr ⟨hopen, hturn.tallies hopen⟩

theorem lowers_of_task (h : w.task? = some (token, handler))
    (hc : w.connections[token]? = some c) {d : Desk} (hd : d.connection = c) :
    Lowers Desk.withActive handler d fun k _ => k ≤ 1 ∧ (c.done = true → k = 0) := by
  subst hd
  obtain ⟨event, rfl⟩ | ⟨hopen, rfl | rfl⟩ := cases_of_task h hc
  · exact Desk.handleEvent_lowers token w.timeout event
  · exact (Desk.handleExpired_once token w.timeout).mono fun k _ hk =>
      ⟨hk, fun hdone => absurd (hdone.symm.trans hopen) (by simp)⟩
  · exact Desk.handlePace_once.mono fun k _ hk =>
      ⟨hk, fun hdone => absurd (hdone.symm.trans hopen) (by simp)⟩

theorem Tallies.active_pos (h : w.Tallies) (hloops : w.phase.loops = true)
    (hc : w.connections[token]? = some c) (hopen : c.done = false) : 0 < w.active := by
  rw [h.active_eq hloops, sum_active, List.countP_pos_iff]
  exact ⟨c, List.mem_of_getElem? hc, by rw [hopen]; rfl⟩

/-- The connection of the token is done. -/
def isDone (w : Worker) (token : ℕ) : Bool := (w.connections[token]?.map (·.done)).getD false

/-- The token of the connection that the next step subtracts, as often as it does. -/
def subtracted (w : Worker) : List ℕ :=
  match w.task? with
  | none => []
  | some (token, _) => List.replicate (w.active - w.step.active) token

/-- The subtractions of the steps of a worker. -/
def subtractedIn (w : Worker) : List RequestSequence → List ℕ
  | [] => []
  | sequence :: turns =>
    (w.sharing sequence).subtracted ++ subtractedIn (w.sharing sequence).step turns

/-- A handler ends the worker or has run on a connection. -/
theorem work_cases (token : ℕ) (handler : DeskM Unit) (w : Worker) :
    ((w.work token handler).connections = w.connections ∧
        (w.work token handler).active = w.active) ∨
      ∃ c d, w.connections[token]? = some c ∧ handler (w.desk c) = .ok () d ∧
        w.work token handler = w.withDesk token d := by
  unfold work
  split
  · exact Or.inl ⟨rfl, rfl⟩
  · rename_i c hc
    split
    · exact Or.inl ⟨rfl, rfl⟩
    · rename_i d hd
      exact Or.inr ⟨c, d, hc, hd, rfl⟩

theorem isDone_of_connections {w' : Worker} (h : w'.connections = w.connections) (token : ℕ) :
    w'.isDone token = w.isDone token := by
  rw [isDone, isDone, h]

theorem isDone_withDesk {d : Desk} (hc : w.connections[token]? = some c) (other : ℕ) :
    (w.withDesk token d).isDone other =
      if other = token then d.connection.done else w.isDone other := by
  obtain ⟨hlt, -⟩ := List.getElem?_eq_some_iff.mp hc
  split
  · rename_i heq
    subst heq
    simp only [isDone, withDesk, List.getElem?_set_self hlt, Option.map_some, Option.getD_some]
  · rename_i hne
    simp only [isDone, withDesk, List.getElem?_set_ne (Ne.symm hne)]

/-- A new connection is not done. -/
theorem Grows.isDone_eq {w' : Worker} (h : w.Grows w') (token : ℕ) :
    w'.isDone token = w.isDone token := by
  obtain ⟨limit, drawn, addressIndex, now, -, hconnections⟩ := h.connections_eq
  rw [isDone, isDone, hconnections, List.getElem?_append]
  split
  · rfl
  · rename_i hge
    rw [List.getElem?_eq_none (Nat.le_of_not_lt hge)]
    cases token - w.connections.length with
    | zero => rfl
    | succ n => rfl

/-- What a step with a handler does to the counter and to the connection of its token. -/
theorem Tallies.task_cases (h : w.Tallies) (htask : w.task? = some (token, handler)) :
    (w.step.connections = w.connections ∧ w.step.active = w.active) ∨
      ∃ (c : Connection) (d : Desk), w.connections[token]? = some c ∧ c.done = false ∧
        0 < w.active ∧
        w.step.connections = w.connections.set token d.connection ∧
        w.step.active = w.active - if d.connection.done then 1 else 0 := by
  obtain ⟨phase, deadlines, pacing, hstep⟩ := step_of_task htask
  rw [hstep]
  cases work_cases token handler
    { w with phase := phase, deadlines := deadlines, pacing := pacing } with
  | inl hsame => exact Or.inl hsame
  | inr hworked =>
    obtain ⟨c, d, hc, hrun, hdesk⟩ := hworked
    rw [hdesk]
    cases tallies_of_task htask hc rfl hrun with
    | inl heq =>
      subst heq
      rw [withDesk_desk hc]
      exact Or.inl ⟨rfl, rfl⟩
    | inr htallies =>
      obtain ⟨hopen, htallies⟩ := htallies
      exact Or.inr ⟨c, d, hc, hopen, h.active_pos (loops_of_task htask) hc hopen, rfl, htallies⟩

/-- A step subtracts the connection that it makes done. -/
theorem Tallies.count_subtracted (h : w.Tallies) (other : ℕ) :
    w.subtracted.count other + (if w.isDone other then 1 else 0) =
      if w.step.isDone other then 1 else 0 := by
  cases htask : w.task? with
  | none =>
    have hsame : w.step.isDone other = w.isDone other := by
      cases step_of_idle htask with
      | inl hconnections => exact isDone_of_connections hconnections other
      | inr hgrows => exact hgrows.isDone_eq other
    rw [subtracted, htask, hsame, List.count_nil, Nat.zero_add]
  | some task =>
    obtain ⟨token, handler⟩ := task
    simp only [subtracted, htask]
    obtain ⟨hconnections, hactive⟩ | ⟨c, d, hc, hopen, hpos, hconnections, hactive⟩ :=
      h.task_cases htask
    · rw [hactive, Nat.sub_self, isDone_of_connections hconnections, List.replicate_zero,
        List.count_nil, Nat.zero_add]
    · have hstep : w.step.isDone other =
          if other = token then d.connection.done else w.isDone other := by
        rw [← isDone_withDesk hc]
        exact isDone_of_connections hconnections other
      rw [hstep, hactive, List.count_replicate]
      by_cases heq : other = token
      · subst heq
        have hbefore : w.isDone other = false := by
          rw [isDone, hc]
          exact hopen
        rw [hbefore, if_pos rfl, if_pos (beq_self_eq_true _)]
        cases d.connection.done with
        | true =>
          simp only [if_true, Bool.false_eq_true, if_false]
          omega
        | false => simp
      · rw [if_neg heq, if_neg (by simpa using Ne.symm heq), Nat.zero_add]

/-- A run subtracts each connection that is done in the end, and was not in the beginning, once. -/
theorem Tallies.count_subtractedIn (h : w.Tallies) (turns : List RequestSequence) (token : ℕ) :
    (w.subtractedIn turns).count token + (if w.isDone token then 1 else 0) =
      if (w.steps turns).isDone token then 1 else 0 := by
  induction turns generalizing w with
  | nil => exact Nat.zero_add _
  | cons sequence turns ih =>
    have hshared := invariant_tallies.sharing w sequence h
    have hfirst := hshared.count_subtracted token
    have hrest := ih (invariant_tallies.step hshared)
    have hbefore : (w.sharing sequence).isDone token = w.isDone token := rfl
    rw [subtractedIn, steps, List.count_append, ← hrest, ← hfirst, hbefore]
    omega

/-- The loop ends at its top, when all connections are done. -/
theorem Tallies.ends_iff (h : w.Tallies) (hloops : w.phase.loops = true) :
    (∃ s, w.step.phase = .finished (.ok s)) ↔
      w.phase = .polling ∧ ∀ c ∈ w.connections, c.done = true := by
  rw [← sum_active_eq_zero, ← h.active_eq hloops]
  constructor
  · rintro ⟨s, hphase⟩
    exact (ended_of_loops hloops hphase).1
  · rintro ⟨hpolling, hactive⟩
    refine ⟨w.summary, ?_⟩
    rw [step, hpolling]
    simp only [hactive, if_true]
    rfl

/-- The account of the active connections, with the subtractions so far. -/
structure CountsActive (w : Worker) (subtracted : List ℕ) : Prop where
  active_eq : w.phase.loops = true → w.active = w.connections.countP fun c => !c.done
  once : ∀ token, subtracted.count token = if w.isDone token then 1 else 0
  within : ∀ token handler c (d : Desk), w.task? = some (token, handler) →
    w.connections[token]? = some c → d.connection = c →
      Lowers Desk.withActive handler d fun k _ => k ≤ w.active
  ends_iff : w.phase.loops = true → ∀ sequence,
    (∃ s, (w.sharing sequence).step.phase = .finished (.ok s)) ↔
      w.phase = .polling ∧ ∀ c ∈ w.connections, c.done = true

theorem Tallies.lowers (h : w.Tallies) (htask : w.task? = some (token, handler))
    (hc : w.connections[token]? = some c) {d : Desk} (hd : d.connection = c) :
    Lowers Desk.withActive handler d fun k _ => k ≤ w.active := by
  refine (lowers_of_task htask hc hd).mono fun k _ hk => ?_
  cases hdone : c.done with
  | true =>
    rw [hk.2 hdone]
    exact Nat.zero_le _
  | false => exact hk.1.trans (h.active_pos (loops_of_task htask) hc hdone)

theorem Tallies.steps (h : w.Tallies) (turns : List RequestSequence) : (w.steps turns).Tallies := by
  induction turns generalizing w with
  | nil => exact h
  | cons sequence turns ih => exact ih (invariant_tallies.step (invariant_tallies.sharing w _ h))

theorem tallies_new (addresses : List SocketAddr) (limits : List ConnectionLimit) (timeout : ℕ)
    (tls : Bool) (world : World) : (new addresses limits timeout tls world).Tallies where
  allOpen _ _ _ hc := absurd hc List.not_mem_nil
  active_eq hloops := absurd hloops Bool.false_ne_true

/-- At the top of the loop the active connections are those that are not done. Each is
subtracted once, no handler subtracts more than there is, and the loop ends when all are done.
A failure that is not recovered ends the connection and not the worker. -/
theorem active_counted (addresses : List SocketAddr) (limits : List ConnectionLimit)
    (timeout : ℕ) (tls : Bool) (world : World) (turns : List RequestSequence) :
    CountsActive ((new addresses limits timeout tls world).steps turns)
        ((new addresses limits timeout tls world).subtractedIn turns) ∧
      (∀ (s s₁ s₂ : Session) (later : World) (stopped : Bool),
        recoverRequest s = .ok false s₁ → s₁.world.clock ≤ later.clock →
        stopAfterDurationError ⟨s₁.connection.clearRecoveryAttempts, later⟩ = .ok stopped s₂ →
          stopped = true ∨ s₂.connection.done = true) ∧
      ∀ (token timeout : ℕ) (addError : SocketErrors → SocketErrors) (error error' : RunError)
        (d : Desk), Desk.recoverOrStop token timeout addError error d =
          Desk.recoverOrStop token timeout addError error' d := by
  have hnew := tallies_new addresses limits timeout tls world
  have htallies := hnew.steps turns
  refine ⟨⟨?_, ?_, ?_, ?_⟩, fun _ _ _ _ _ => stopped_or_done, Desk.recoverOrStop_eq⟩
  · intro hloops
    rw [htallies.active_eq hloops, sum_active]
  · intro token
    exact hnew.count_subtractedIn turns token
  · intro token handler _ d htask hc hd
    exact htallies.lowers htask hc hd
  · intro hloops sequence
    exact (invariant_tallies.sharing _ sequence htallies).ends_iff hloops

end Worker
end Rload
