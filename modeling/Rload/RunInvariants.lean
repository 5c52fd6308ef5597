import Rload.ConnectionMoves
import Rload.LoadRun
import Rload.WorkerMoves

/-!
# What holds throughout every run

A property of workers that every move keeps holds of all workers of a run, whatever the
outside answers and in whatever order the workers make their steps; and so does a property of
connections that every move of a connection keeps.
-/

namespace Rload
open Connection

namespace Worker

/-- The worker sees the sequence that the workers share. -/
def sharing (sequence : RequestSequence) (w : Worker) : Worker :=
  { w with world := { w.world with sequence := sequence } }

/-- The worker has ended by an error. -/
def failed (w : Worker) : Prop := ∃ h, w.phase = .finished (.error h)

theorem not_failed_of_running {w : Worker} (h : w.phase.isFinished = false) : ¬ w.failed := by
  rintro ⟨e, hfailed⟩
  rw [hfailed] at h
  cases h

theorem not_failed_of_loops {w : Worker} (h : w.phase.loops = true) : ¬ w.failed := by
  rintro ⟨e, hfailed⟩
  rw [hfailed] at h
  cases h

theorem failed_step {w : Worker} (h : w.failed) : w.step.failed := by
  obtain ⟨e, hphase⟩ := h
  have hfinished : w.phase.isFinished = true := by
    rw [hphase]
    rfl
  rw [step_of_finished hfinished]
  exact ⟨e, hphase⟩

/-- The property says nothing about the shared sequence and survives every move. -/
structure Invariant (P : Worker → Prop) : Prop where
  sharing : ∀ w sequence, P w → P (w.sharing sequence)
  move : ∀ w w', w.phase.isFinished = false → P w → w.Move w' → P w'

variable {P : Worker → Prop}

theorem Invariant.step (hP : Invariant P) {w : Worker} (hw : P w) : P w.step := by
  cases hphase : w.phase.isFinished with
  | true => rwa [step_of_finished hphase]
  | false => exact hP.move w _ hphase hw (step_moves hphase)

theorem Invariant.shareStep (hP : Invariant P) (w : Worker) (sequence : RequestSequence)
    (hw : P w) : P (w.shareStep sequence).1 :=
  hP.step (hP.sharing w sequence hw)

theorem Invariant.and {Q : Worker → Prop} (hP : Invariant P) (hQ : Invariant Q) :
    Invariant fun w => P w ∧ Q w where
  sharing w sequence h := ⟨hP.sharing w sequence h.1, hQ.sharing w sequence h.2⟩
  move w w' hphase h hm := ⟨hP.move w w' hphase h.1 hm, hQ.move w w' hphase h.2 hm⟩

theorem Move.reach {w w' : Worker} (h : w.Move w') :
    w.world.sequence.Reaches w'.world.sequence := by
  have idle : ∀ {Q : Timer → Prop} {w₁ : Worker}, Idles Q w w₁ →
      w.world.sequence.Reaches w₁.world.sequence :=
    fun hidles => hidles.later.steady.reach
  cases h with
  | halted hhalts => exact hhalts.ends.reach
  | opened hphase hw => exact hw.steady.reach
  | connected hphase hw => exact hw.reach
  | refused hphase hw => exact hw.steady.reach
  | gaveUp hphase hw => exact hw.steady.reach
  | ranOut hphase hw => exact hw.steady.reach
  | entered => exact .refl
  | ended => exact .refl
  | idled hidles => exact idle hidles
  | handled hidles hc hturns => exact (idle hidles).trans hturns.steady.reach
  | expired hidles hphase ht hdue htoken hgeneration hc hdone hsettles =>
    exact (idle hidles).trans hsettles.steady.reach

/-- A step only draws from the sequence. -/
theorem step_reach (w : Worker) : w.world.sequence.Reaches w.step.world.sequence := by
  cases hphase : w.phase.isFinished with
  | true =>
    rw [step_of_finished hphase]
    exact .refl
  | false => exact (step_moves hphase).reach

end Worker

/-- The parameters of a run: what is prepared, and what comes from outside. -/
structure RunInput where
  prepared : PreparedRun
  addresses : List SocketAddr
  tls : Bool
  surroundings : Surroundings
  started : ℕ

namespace RunInput

variable (input : RunInput)

def start : LoadRun :=
  .start input.prepared input.addresses input.tls input.surroundings input.started

/-- The run after the steps of a schedule. -/
def after (schedule : List ℕ) : LoadRun := input.start.follow schedule

/-- The limits of the connections of each worker. -/
def limits : List (List ConnectionLimit) :=
  let (connectionCount, limits, _) := connectionLimits input.prepared.config input.started
  workerLimits (min input.prepared.config.threads connectionCount) limits

/-- A worker before its first step. -/
def newWorker (limits : List ConnectionLimit) (worker : ℕ) : Worker :=
  .new input.addresses limits input.prepared.config.timeout input.tls
    (LoadRun.worldOf input.surroundings input.started worker input.prepared.sequence)

theorem start_components :
    input.start.components = input.limits.zipIdx.map fun (limits, worker) =>
      input.newWorker limits worker := rfl

theorem forall_worker {P : Worker → Prop} (hP : Worker.Invariant P)
    (hnew : ∀ limits ∈ input.limits, ∀ worker, P (input.newWorker limits worker))
    (schedule : List ℕ) : ∀ w ∈ (input.after schedule).components, P w := by
  apply SharedResource.forall_run Worker.shareStep hP.shareStep
  intro w hw
  rw [start_components, List.mem_map] at hw
  obtain ⟨⟨limits, worker⟩, hmem, rfl⟩ := hw
  exact hnew limits (List.fst_mem_of_mem_zipIdx hmem) worker

/-- The shared sequence is the prepared one after some draws. -/
theorem shared_reach (schedule : List ℕ) :
    input.prepared.sequence.Reaches (input.after schedule).shared := by
  apply SharedResource.run_invariant Worker.shareStep
    (I := fun r => input.prepared.sequence.Reaches r.shared)
  · intro r i w hr _
    exact hr.trans (w.sharing r.shared).step_reach
  · exact .refl

theorem forall₂_zipIdx {α : Type} {R : α × ℕ → α → Prop} (as : List α) (start : ℕ)
    (h : ∀ a ∈ as, ∀ i, R (a, i) a) : List.Forall₂ R (as.zipIdx start) as := by
  induction as generalizing start with
  | nil => exact .nil
  | cons a as ih =>
    exact .cons (h a List.mem_cons_self start)
      (ih (start + 1) fun b hb i => h b (List.mem_cons_of_mem a hb) i)

/-- What each worker keeps with respect to its own limits. -/
theorem forall₂_worker {R : Worker → List ConnectionLimit → Prop}
    (hR : ∀ limits, Worker.Invariant fun w => R w limits)
    (hnew : ∀ limits ∈ input.limits, ∀ worker, R (input.newWorker limits worker) limits)
    (schedule : List ℕ) : List.Forall₂ R (input.after schedule).components input.limits := by
  apply SharedResource.forall₂_run Worker.shareStep
  · intro w sequence limits h
    exact (hR limits).shareStep w sequence h
  · rw [start_components, List.forall₂_map_left_iff]
    exact forall₂_zipIdx input.limits 0 hnew

/-- A run with one worker over plain TCP, for concrete replies. -/
def plain (limit : RunLimit) (connections : ℕ) (sequence : RequestSequence) (rounds : Option ℕ)
    (replies : ℕ → Reply) : RunInput where
  prepared := {
    config := { limit := limit, connections := connections, threads := 1, timeout := 10 ^ 9 }
    sequence := sequence
    filteredReplayEntries := 0
    replayRate := none
    replayEntries := sequence.requests.length
    configuredReplayRounds := rounds }
  addresses := [{ ip := 0, port := 80 }]
  tls := false
  surroundings := fun _ => replies
  started := 0

end RunInput

/-- `GET / HTTP/1.1`. -/
def getRoot : EncodedRequest where
  bytes := [71, 69, 84, 32, 47, 32, 72, 84, 84, 80, 47, 49, 46, 49, 13, 10, 13, 10]
  methodUriStart := methodUriStart .get 4
  uriEnd := 5
  timestampMicros := none

/-- `HTTP/1.1 200 OK` with `Content-Length: 0`. -/
def emptyResponse : List UInt8 :=
  [72, 84, 84, 80, 47, 49, 46, 49, 32, 50, 48, 48, 32, 79, 75, 13, 10, 67, 111, 110, 116, 101,
    110, 116, 45, 76, 101, 110, 103, 116, 104, 58, 32, 48, 13, 10, 13, 10]

/-- The entries in their order, without a pace. -/
def RequestSequence.inOrder (requests : List EncodedRequest) : RequestSequence where
  requests := requests
  selection := .sequential 0
  pacer := none
  timestampPacer := none
  timestampCursor := none
  stagePacer := none

/-- A server that takes and answers every request at once. -/
def promptReply : Reply where
  reads := [.ok emptyResponse]
  writes := [.ok 18]
  events := [{ token := 0, isWritable := true, isReadable := true }]

/-- Two requests on one connection to such a server. -/
def RunInput.promptRun : RunInput :=
  plain (.requests 2) 1 (.inOrder [getRoot]) none fun _ => promptReply

/-- One request in a second, and a server that closes its connection before the second one. -/
def RunInput.closingRun : RunInput :=
  plain (.requests 2) 1 ((RequestSequence.inOrder [getRoot]).withRate (some 1) 0) none
    fun call =>
      if call < 20 then promptReply
      else if call < 30 then { reads := [.ok []], events := [{ token := 0, isReadable := true }] }
      else {}

/-- The property survives time and every move of a connection, and new connections have it. -/
structure Connection.Invariant (P : ℕ → Connection → Prop) : Prop where
  time : ∀ t t' c, t ≤ t' → P t c → P t' c
  move : ∀ t c c', P t c → Connection.Move t c c' → P t c'
  connected : ∀ addresses limit tls drawn addressIndex t,
    P t (Connection.connected addresses limit tls drawn addressIndex t)

namespace Worker

variable {P : ℕ → Connection → Prop}

theorem mem_connections_withDesk {token : ℕ} {d : Desk} {w : Worker} {c : Connection}
    (hc : c ∈ (w.withDesk token d).connections) : c ∈ w.connections ∨ c = d.connection :=
  List.mem_or_eq_of_mem_set hc

theorem invariant_connections (hP : Connection.Invariant P) :
    Invariant fun w => ∀ c ∈ w.connections, P w.world.clock c where
  sharing w sequence h := h
  move w w' _ h hmove := by
    have idle : ∀ {Q : Timer → Prop} {w₁ : Worker}, Idles Q w w₁ →
        ∀ c ∈ w₁.connections, P w₁.world.clock c := by
      intro Q w₁ hidles c hc
      rw [hidles.connections_eq] at hc
      exact hP.time _ _ c hidles.later.clock_le (h c hc)
    have turned : ∀ {Q : Timer → Prop} {w₁ : Worker} {token : ℕ} {c : Connection} {d : Desk},
        Idles Q w w₁ → w₁.connections[token]? = some c →
        Moves w₁.world.clock c d.world.clock d.connection →
        ∀ c ∈ (w₁.withDesk token d).connections, P d.world.clock c := by
      intro Q w₁ token c d hidles hc hmoves c' hc'
      cases mem_connections_withDesk hc' with
      | inl hmem => exact hP.time _ _ c' hmoves.le (idle hidles c' hmem)
      | inr heq =>
        rw [heq]
        exact hmoves.keeps hP.time hP.move (idle hidles c (List.mem_of_getElem? hc))
    cases hmove with
    | halted hhalts =>
      intro c hc
      rw [hhalts.connections_eq] at hc
      exact hP.time _ _ c hhalts.ends.clock_le (h c hc)
    | opened hphase hw => exact fun c hc => hP.time _ _ c hw.clock_le (h c hc)
    | connected hphase hw hfrom hto =>
      intro c hc
      cases List.mem_append.mp hc with
      | inl hmem => exact hP.time _ _ c hw.clock_le (h c hmem)
      | inr hnew =>
        rw [List.mem_singleton] at hnew
        rw [hnew]
        exact hP.time _ _ _ hto (hP.move _ _ _ (hP.connected _ _ _ _ _ _) (.watch _))
    | refused hphase hw => exact fun c hc => hP.time _ _ c hw.clock_le (h c hc)
    | gaveUp hphase hw => exact fun c hc => hP.time _ _ c hw.clock_le (h c hc)
    | ranOut hphase hw => exact fun c hc => hP.time _ _ c hw.clock_le (h c hc)
    | entered hphase => exact h
    | ended hphase hactive => exact h
    | idled hidles => exact idle hidles
    | handled hidles hc hturns => exact turned hidles hc hturns.moves
    | expired hidles hphase ht hdue htoken hgeneration hc hdone hsettles =>
      exact turned hidles hc hsettles.moves

end Worker

/-- The property survives every turn of an open connection, and new connections have it. -/
structure Connection.TurnInvariant (P : Connection → Prop) : Prop where
  turn : ∀ {token timeout : ℕ} {d d' : Desk}, Desk.Turn token timeout d d' →
    d.connection.done = false → P d.connection → P d'.connection
  settles : ∀ {token timeout : ℕ} {allowed : Counter → Prop} {d d' : Desk},
    Desk.Settles token timeout allowed d d' → d.connection.done = false →
      P d.connection → P d'.connection
  connected : ∀ addresses limit tls drawn addressIndex t,
    P ((Connection.connected addresses limit tls drawn addressIndex t).watch (some ⟨true⟩))

theorem Connection.TurnInvariant.turns {P : Connection → Prop}
    (hP : Connection.TurnInvariant P)
    {token timeout : ℕ} {d d' : Desk} (h : Desk.Turns token timeout d d') (hc : P d.connection) :
    P d'.connection := by
  induction h with
  | refl => exact hc
  | tail _ hturn ih => exact hP.turn hturn.2 hturn.1 ih

namespace Worker

variable {P : Connection → Prop}

theorem invariant_turns (hP : Connection.TurnInvariant P) :
    Invariant fun w => ∀ c ∈ w.connections, P c where
  sharing w sequence h := h
  move w w' _ h hmove := by
    have turned : ∀ {Q : Timer → Prop} {w₁ : Worker} {token : ℕ} {d : Desk}, Idles Q w w₁ →
        P d.connection → ∀ c ∈ (w₁.withDesk token d).connections, P c := by
      intro Q w₁ token d hidles hd c hc
      cases mem_connections_withDesk hc with
      | inl hmem =>
        rw [hidles.connections_eq] at hmem
        exact h c hmem
      | inr heq =>
        rw [heq]
        exact hd
    cases hmove with
    | halted hhalts => rwa [hhalts.connections_eq]
    | connected hphase =>
      intro c hc
      cases List.mem_append.mp hc with
      | inl hmem => exact h c hmem
      | inr hnew =>
        rw [List.mem_singleton] at hnew
        rw [hnew]
        exact hP.connected _ _ _ _ _ _
    | idled hidles => rwa [hidles.connections_eq]
    | handled hidles hc hturns =>
      have hc' := List.mem_of_getElem? hc
      rw [hidles.connections_eq] at hc'
      exact turned hidles (hP.turns hturns (h _ hc'))
    | expired hidles hphase ht hdue htoken hgeneration hc hdone hsettles =>
      have hc' := List.mem_of_getElem? hc
      rw [hidles.connections_eq] at hc'
      exact turned hidles (hP.settles hsettles hdone (h _ hc'))
    | _ => exact h

end Worker

theorem RunInput.forall_turned (input : RunInput) {P : Connection → Prop}
    (hP : Connection.TurnInvariant P) (schedule : List ℕ) :
    ∀ w ∈ (input.after schedule).components, ∀ c ∈ w.connections, P c := by
  apply input.forall_worker (Worker.invariant_turns hP)
  intro limits _ worker c hc
  cases hc

theorem RunInput.forall_connection (input : RunInput) {P : ℕ → Connection → Prop}
    (hP : Connection.Invariant P) (schedule : List ℕ) :
    ∀ w ∈ (input.after schedule).components, ∀ c ∈ w.connections, P w.world.clock c := by
  apply input.forall_worker (Worker.invariant_connections hP)
  intro limits _ worker c hc
  cases hc

end Rload
