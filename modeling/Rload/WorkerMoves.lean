import Rload.HandlerTurns
import Rload.Worker

/-!
# What a step of a worker can do

Each step is one of a few moves: an attempt to connect, a turn of the loop that looks at no
connection, the turns of one connection, or the end.
-/

namespace Rload
open StatefulPrograms

namespace Connection

/-- The connection that `connect` makes. -/
def connected (addresses : List SocketAddr) (limit : ConnectionLimit) (tls : Bool) (drawn : Drawn)
    (addressIndex connectedAt : ℕ) : Connection where
  stream := ⟨tls, none⟩
  addresses := addresses
  addressIndex := addressIndex
  limit := limit
  tls := tls
  connectedAt := connectedAt
  entry := drawn.entry
  method := drawn.method
  uri := drawn.uri
  request := drawn.request
  notBefore := drawn.notBefore
  awaitingPace := false
  reconnectAtPace := false
  writeOffset := 0
  decoder := freshDecoder drawn.method
  started := none
  completed := 0
  done := false
  timerGeneration := 0
  pendingReadBytes := 0
  pendingRecoveryAttempts := 0
  recoveryAttempts := 0
  history := [.drew drawn.entry, .opened ⟨0, false, true⟩ connectedAt]

theorem connect_spec (addresses : List SocketAddr) (limit : ConnectionLimit) (tls : Bool)
    (w : World) :
    Ensures (connect addresses limit tls) w
      (fun c w' => ∃ drawn addressIndex now, w.Draws drawn w' ∧ w.clock ≤ now ∧ now ≤ w'.clock ∧
        c = connected addresses limit tls drawn addressIndex now)
      fun e w' => if e.isRunError then w.Later (Pi.single .connect 1) w' else w.Later 0 w' := by
  unfold connect
  simp only [ensures_bind]
  apply (connectFrom_spec .connect addresses 0 w).mono
  · intro addressIndex w₁ h₁
    apply (Transport.new_spec true tls w₁).mono
    · rintro stream w₂ ⟨rfl, h₂⟩
      have h₂ := h₁.zero_trans h₂
      apply (World.drawRequest_spec w₂).mono
      · intro drawn w₃ h₃
        have h₃ := h₂.draws h₃
        apply World.ensures_now
        intro w₄ h₄
        exact ⟨drawn, addressIndex, w₄.clock, h₃.later h₄, (h₃.later h₄).clock_le, le_rfl, rfl⟩
      · rintro e w₃ ⟨he, h₃⟩
        rw [he]
        exact h₂.zero_trans h₃
    · rintro e w₂ ⟨he, -, h₂⟩
      rw [he]
      exact h₁.zero_trans h₂
  · rintro e w' ⟨error, w₁, rfl, hw, rfl⟩
    exact hw.zero_trans (World.later_note_counted rfl rfl)

theorem register_spec (s : Session) :
    Ensures register s
      (fun _ s' => s'.connection = s.connection.watch (some ⟨true⟩) ∧ s.world.Later 0 s'.world)
      fun e s' => s.world.Ends e s'.world := by
  apply (askRegistry_spec s .register (some ⟨true⟩)).mono
  · intro _ s' h
    exact h
  · rintro e s' ⟨-, hw⟩
    exact hw.ends service_fatal

end Connection

/-- The connections are made and the loop goes on. -/
def Phase.loops : Phase → Bool
  | .polling | .handling _ | .expiring _ | .resuming _ => true
  | _ => false

def Phase.isFinished : Phase → Bool
  | .finished _ => true
  | _ => false

/-- The time at which the timers are looked through. -/
def Phase.instant : Phase → Option ℕ
  | .expiring now | .resuming now => some now
  | _ => none

namespace Worker

/-- The loop goes on without a look at a connection; the deadlines that it takes off the queue
are of the kind `P`, and the paces are stale or due. -/
structure Idles (P : Timer → Prop) (w w' : Worker) : Prop where
  connections_eq : w'.connections = w.connections
  summary_eq : w'.summary = w.summary
  active_eq : w'.active = w.active
  timeout_eq : w'.timeout = w.timeout
  loops : w.phase.loops = true
  loops_after : w'.phase.loops = true
  later : w.world.Later 0 w'.world
  dropped : ∀ t ∈ w.deadlines, t ∈ w'.deadlines ∨ P t
  kept : ∀ t ∈ w'.deadlines, t ∈ w.deadlines
  paces : ∀ t ∈ w.pacing, t ∈ w'.pacing ∨ isStalePacing w.connections t = true ∨
    ∃ now, w.phase.instant = some now ∧ t.time ≤ now
  instant : ∀ now, w'.phase.instant = some now →
    w.phase.instant = some now ∨ now ≤ w'.world.clock

/-- An error ends the worker. -/
structure Halts (h : Halt) (w w' : Worker) : Prop where
  connections_eq : w'.connections = w.connections
  summary_eq : w'.summary = w.summary
  phase_eq : w'.phase = .finished (.error h)
  ends : w.world.Ends h w'.world

theorem halt_halts {h : Halt} {w : Worker} {world : World} (hends : w.world.Ends h world) :
    Halts h w (w.halt h world) := ⟨rfl, rfl, rfl, hends⟩

theorem Idles.halts {P : Timer → Prop} {h : Halt} {w w₁ : Worker} {world : World}
    (hidles : Idles P w w₁) (hends : w₁.world.Ends h world) : Halts h w (w₁.halt h world) :=
  ⟨hidles.connections_eq, hidles.summary_eq, rfl, hidles.later.ends hends⟩

def abandonFirst (requests : ℕ) (s : RunSummary) : RunSummary :=
  { s with abandonedRequests := s.abandonedRequests + requests }

inductive Move (w : Worker) : Worker → Prop
  | halted {w' : Worker} {h : Halt} (hhalts : Halts h w w') : Move w w'
  | opened {limits : List ConnectionLimit} {world : World} (hphase : w.phase = .opening limits)
      (hw : w.world.Later 0 world) :
      Move w { w with world := world, phase := .starting limits 0 }
  | connected {limit : ConnectionLimit} {limits : List ConnectionLimit} {attempts : ℕ}
      {drawn : Drawn} {addressIndex now : ℕ} {world : World}
      (hphase : w.phase = .starting (limit :: limits) attempts) (hw : w.world.Draws drawn world)
      (hfrom : w.world.clock ≤ now) (hto : now ≤ world.clock) :
      Move w { w with
        connections := w.connections ++ [(Connection.connected w.addresses limit w.tls drawn
          addressIndex now).watch (some ⟨true⟩)]
        world := world
        phase := .starting limits 0 }
  | refused {limits : List ConnectionLimit} {attempts attempts' : ℕ} {world : World}
      (hphase : w.phase = .starting limits attempts)
      (hw : w.world.Later (Pi.single .connect 1) world) :
      Move w { w with
        summary := countConnectError w.summary
        world := world
        phase := .starting limits attempts' }
  | gaveUp {requests : ℕ} {limits : List ConnectionLimit} {attempts : ℕ} {world : World}
      (hphase : w.phase = .starting (.requests requests :: limits) attempts)
      (hw : w.world.Later (Pi.single .connect 1) world) :
      Move w { w with
        summary := abandonFirst requests (countConnectError w.summary)
        world := world
        phase := .starting limits 0 }
  | ranOut {deadline : ℕ} {limits : List ConnectionLimit} {attempts : ℕ} {world : World}
      (hphase : w.phase = .starting (.deadline deadline :: limits) attempts)
      (hw : w.world.Later (Pi.single .connect 1) world) :
      Move w { w with
        summary := countConnectError w.summary
        world := world
        phase := .finished (.ok (countConnectError w.summary)) }
  | entered {attempts : ℕ} (hphase : w.phase = .starting [] attempts) : Move w w.enterLoop
  | ended (hphase : w.phase = .polling) (hactive : w.active = 0) :
      Move w (w.goTo (.finished (.ok w.summary)))
  | idled {w' : Worker} (h : Idles (fun t => isStale w.connections t) w w') : Move w w'
  | handled {w₁ : Worker} {token : ℕ} {c : Connection} {d : Desk}
      (h : Idles (fun t => isStale w.connections t) w w₁)
      (hc : w₁.connections[token]? = some c) (hturns : Desk.Turns token w₁.timeout (w₁.desk c) d) :
      Move w (w₁.withDesk token d)
  | expired {w₁ : Worker} {token now : ℕ} {t : Timer} {c : Connection} {d : Desk}
      (h : Idles (fun t => t.token = token) w w₁) (hphase : w.phase = .expiring now)
      (ht : t ∈ w.deadlines) (hdue : t.time ≤ now) (htoken : t.token = token)
      (hgeneration : t.generation = c.timerGeneration)
      (hc : w₁.connections[token]? = some c) (hdone : c.done = false)
      (hsettles : Desk.Settles token w₁.timeout
        (fun counter => counter = .timeout → c.hasStarted) (w₁.desk c) d) :
      Move w (w₁.withDesk token d)

theorem now_eq (world : World) : World.now world = .ok world.advance.clock world.advance := rfl

theorem sleep_eq (nanos : ℕ) (world : World) :
    World.sleep nanos world = .ok () { world.advance with clock := world.advance.clock + nanos } :=
  rfl

theorem later_sleep (nanos : ℕ) (world : World) :
    world.Later 0 { world.advance with clock := world.advance.clock + nanos } := by
  refine ⟨?_, rfl, rfl, rfl⟩
  exact (World.later_advance world).clock_le.trans (Nat.le_add_right _ _)

theorem openPoll_moves {limits : List ConnectionLimit} {w : Worker}
    (hphase : w.phase = .opening limits) : w.Move (w.openPoll limits) := by
  unfold openPoll
  have hspec := World.service_spec w.world
  cases hs : World.service w.world with
  | error h world => exact .halted (halt_halts ((hspec.of_error hs).ends Connection.service_fatal))
  | ok _ world => exact .opened hphase (hspec.of_ok hs)

theorem attemptFailed_moves {limit : ConnectionLimit} {limits : List ConnectionLimit}
    {attempts : ℕ} {w : Worker} {world : World}
    (hphase : w.phase = .starting (limit :: limits) attempts)
    (hw : w.world.Later (Pi.single .connect 1) world) :
    w.Move (attemptFailed limit limits attempts { w with world := world }) := by
  unfold attemptFailed
  cases limit with
  | deadline deadline =>
    simp only [now_eq, sleep_eq]
    have hw' := hw.trans (World.later_advance world)
    split
    · exact .ranOut hphase hw'
    · have hmove := @Move.refused w _ attempts attempts _ hphase
        (hw'.trans (later_sleep 1000000 _))
      rw [← hphase] at hmove
      exact hmove
  | requests requests =>
    simp only [sleep_eq]
    split
    · exact .gaveUp hphase hw
    · exact .refused hphase (hw.trans (later_sleep 1000000 world))

theorem startNext_moves {limit : ConnectionLimit} {limits : List ConnectionLimit} {attempts : ℕ}
    {w : Worker} (hphase : w.phase = .starting (limit :: limits) attempts) :
    w.Move (startNext limit limits attempts w) := by
  unfold startNext
  have hspec := Connection.connect_spec w.addresses limit w.tls w.world
  cases hc : Connection.connect w.addresses limit w.tls w.world with
  | error h world =>
    have hw := hspec.of_error hc
    cases h with
    | error e => exact attemptFailed_moves hphase hw
    | panic message =>
      have hw : w.world.Later 0 world := hw
      exact .halted (halt_halts (hw.ends_of_not_io rfl))
    | diverge =>
      have hw : w.world.Later 0 world := hw
      exact .halted (halt_halts (hw.ends_of_not_io rfl))
  | ok c world =>
    obtain ⟨drawn, addressIndex, now, hw, hfrom, hto, rfl⟩ := hspec.of_ok hc
    have hregister := Connection.register_spec
      ⟨Connection.connected w.addresses limit w.tls drawn addressIndex now, world⟩
    simp only
    cases hr : Connection.register
        ⟨Connection.connected w.addresses limit w.tls drawn addressIndex now, world⟩ with
    | error h s => exact .halted (halt_halts (hw.ends (hregister.of_error hr)))
    | ok _ s =>
      obtain ⟨hs, hlater⟩ := hregister.of_ok hr
      simp only [hs]
      exact .connected hphase (hw.later hlater) hfrom (hto.trans hlater.clock_le)

theorem untilFirst_spec (q : TimerQueue) (world : World) :
    Ensures (untilFirst q) world (fun _ world' => world.Later 0 world') fun _ _ => False := by
  unfold untilFirst
  cases q.head? with
  | none => exact .refl world
  | some t =>
    simp only [ensures_bind]
    apply World.ensures_now
    intro world' h
    exact h

theorem pollTimeout_spec (deadlines pacing : TimerQueue) (world : World) :
    Ensures (pollTimeout deadlines pacing) world (fun _ world' => world.Later 0 world')
      fun _ _ => False := by
  unfold pollTimeout
  simp only [ensures_bind]
  apply (untilFirst_spec deadlines world).mono
  · intro left w₁ h₁
    apply (untilFirst_spec pacing w₁).mono
    · intro right w₂ h₂
      have h₂ := h₁.zero_trans h₂
      split
      · exact h₂
      · exact h₂
    · intro _ _ h
      exact h
  · intro _ _ h
    exact h

theorem pollEvents_spec (timeout : Option ℕ) (world : World) :
    Ensures (pollEvents timeout) world (fun _ world' => world.Later 0 world')
      fun e world' => world.Ends e world' := by
  unfold pollEvents
  simp only [ensures_bind, ensures_get]
  apply (World.service_spec world).mono
  · intro reply w₁ h₁
    simp only [ensures_ite, ensures_bind, ensures_modify, ensures_pure]
    refine ⟨fun _ => ⟨?_, h₁.sequence_eq, h₁.fatal_eq, h₁.count_eq⟩, fun _ => h₁⟩
    exact h₁.clock_le.trans (le_max_left _ _)
  · intro e w₁ h₁
    exact h₁.ends Connection.service_fatal

theorem mem_dropWhile_or {α : Type} {a : α} {l : List α} (p : α → Bool) (h : a ∈ l) :
    a ∈ l.dropWhile p ∨ p a = true := by
  rw [← List.takeWhile_append_dropWhile (p := p) (l := l)] at h
  cases List.mem_append.mp h with
  | inl htaken => exact Or.inr (List.mem_takeWhile_imp htaken)
  | inr hkept => exact Or.inl hkept

theorem discardStale_idles {w : Worker} (hphase : w.phase.loops = true) :
    Idles (fun t => isStale w.connections t) w w.discardStale where
  connections_eq := rfl
  summary_eq := rfl
  active_eq := rfl
  timeout_eq := rfl
  loops := hphase
  loops_after := hphase
  later := .refl _
  dropped := fun _ ht => mem_dropWhile_or _ ht
  kept := fun _ ht => (List.dropWhile_sublist _).subset ht
  paces := fun _ ht => (mem_dropWhile_or _ ht).imp id Or.inl
  instant := fun _ h => Or.inl h

/-- The loop goes on with another phase and another time. -/
theorem Idles.goTo {P : Timer → Prop} {w w₁ : Worker} {phase : Phase} {world : World}
    (h : Idles P w w₁) (hnext : phase.loops = true) (hw : w₁.world.Later 0 world)
    (hinstant : ∀ now, phase.instant = some now → now ≤ world.clock) :
    Idles P w { w₁ with world := world, phase := phase } where
  connections_eq := h.connections_eq
  summary_eq := h.summary_eq
  active_eq := h.active_eq
  timeout_eq := h.timeout_eq
  loops := h.loops
  loops_after := hnext
  later := h.later.zero_trans hw
  dropped := h.dropped
  kept := h.kept
  paces := h.paces
  instant := fun now hnow => Or.inr (hinstant now hnow)

theorem Idles.refl {P : Timer → Prop} {w : Worker} (hphase : w.phase.loops = true) :
    Idles P w w where
  connections_eq := rfl
  summary_eq := rfl
  active_eq := rfl
  timeout_eq := rfl
  loops := hphase
  loops_after := hphase
  later := .refl _
  dropped := fun _ ht => Or.inl ht
  kept := fun _ ht => ht
  paces := fun _ ht => Or.inl ht
  instant := fun _ h => Or.inl h

theorem poll_moves {w : Worker} (hphase : w.phase = .polling) : w.Move w.discardStale.poll := by
  have hidles := discardStale_idles (w := w) (by rw [hphase]; rfl)
  have hspec : Ensures (do
      let timeout ← pollTimeout w.discardStale.deadlines w.discardStale.pacing
      pollEvents timeout) w.world (fun _ world' => w.world.Later 0 world')
      fun e world' => w.world.Ends e world' := by
    rw [ensures_bind]
    apply (pollTimeout_spec _ _ w.world).mono
    · intro timeout w₁ h₁
      apply (pollEvents_spec timeout w₁).mono
      · intro _ w₂ h₂
        exact h₁.zero_trans h₂
      · intro e w₂ h₂
        exact h₁.ends h₂
    · intro _ _ h
      exact h.elim
  unfold poll
  simp only
  split
  · rename_i h world hm
    exact .halted (hidles.halts (hspec.of_error hm))
  · rename_i events world hm
    exact .idled (hidles.goTo rfl (hspec.of_ok hm) nofun)

theorem readClock_moves {w : Worker} {next : ℕ → Phase} (hphase : w.phase.loops = true)
    (hnext : ∀ now, (next now).loops = true ∧ (next now).instant = some now) :
    w.Move (w.readClock next) := by
  obtain ⟨hloops, hinstant⟩ := hnext w.world.advance.clock
  refine .idled ((Idles.refl hphase).goTo hloops (World.later_advance w.world) fun now hnow => ?_)
  exact (Option.some.inj (hinstant.symm.trans hnow)).ge

/-- A handler runs on a connection after the loop has gone on. -/
theorem work_moves {P : Timer → Prop} {R : Connection → Desk → Prop} {w w₁ : Worker}
    {token : ℕ} {handler : DeskM Unit} (h : Idles P w w₁)
    (hhandler : ∀ c, w₁.connections[token]? = some c →
      Ensures handler (w₁.desk c) (fun _ d => R c d) fun e d => w₁.world.Ends e d.world)
    (hmove : ∀ c d, w₁.connections[token]? = some c → R c d → w.Move (w₁.withDesk token d)) :
    w.Move (w₁.work token handler) := by
  unfold work
  cases hc : w₁.connections[token]? with
  | none =>
    have hends : w₁.world.Ends RequestSequence.outOfBounds w₁.world :=
      (World.Later.refl _).ends_of_not_io rfl
    exact .halted (h.halts hends)
  | some c =>
    have hspec := hhandler c hc
    cases hm : handler (w₁.desk c) with
    | error e d =>
      simp only [hm]
      exact .halted (h.halts (hspec.of_error hm))
    | ok _ d =>
      simp only [hm]
      exact hmove c d hc (hspec.of_ok hm)

theorem due_eq_some {now : ℕ} {q q' : TimerQueue} {t : Timer} (h : due now q = some (t, q')) :
    q = t :: q' ∧ t.time ≤ now := by
  cases q with
  | nil => cases h
  | cons u q =>
    simp only [due] at h
    split at h
    · cases h
    · rename_i hdue
      cases h
      exact ⟨rfl, Nat.le_of_not_lt hdue⟩

theorem not_stale_generation {connections : List Connection} {t : Timer} {c : Connection}
    (h : isStale connections t = false) (hc : connections[t.token]? = some c) :
    t.generation = c.timerGeneration := by
  rw [isStale, hc] at h
  simp only [Bool.or_eq_false_iff, decide_eq_false_iff_not, ne_eq, not_not] at h
  exact h.2.symm

theorem not_stale_not_done {connections : List Connection} {t : Timer} {c : Connection}
    (h : isStale connections t = false) (hc : connections[t.token]? = some c) :
    c.done = false := by
  rw [isStale, hc] at h
  simp only [Bool.or_eq_false_iff] at h
  exact h.1

theorem handling_moves {w : Worker} {event : Event} {events : List Event}
    (hp : w.phase = .handling (event :: events)) :
    w.Move ((w.goTo (.handling events)).work event.token
      (Desk.handleEvent event.token w.timeout event)) := by
  have hidles : Idles (fun t => isStale w.connections t) w (w.goTo (.handling events)) :=
    (Idles.refl (by rw [hp]; rfl)).goTo rfl (.refl _) nofun
  apply work_moves (R := fun c d =>
    Desk.Turns event.token w.timeout ((w.goTo (.handling events)).desk c) d) hidles
  · intro c hc
    exact Desk.handleEvent_takes event
  · intro c d hc hturns
    exact .handled hidles hc hturns

/-- The first deadline leaves its queue. -/
theorem idles_pop {P : Timer → Prop} {w : Worker} {t : Timer} {deadlines : TimerQueue}
    (hphase : w.phase.loops = true) (hq : w.deadlines = t :: deadlines) (ht : P t) :
    Idles P w { w with deadlines := deadlines } where
  connections_eq := rfl
  summary_eq := rfl
  active_eq := rfl
  timeout_eq := rfl
  loops := hphase
  loops_after := hphase
  later := .refl _
  dropped := by
    intro u hu
    rw [hq, List.mem_cons] at hu
    cases hu with
    | inl h => exact Or.inr (h ▸ ht)
    | inr h => exact Or.inl h
  kept := fun u hu => hq ▸ List.mem_cons_of_mem t hu
  paces := fun _ ht => Or.inl ht
  instant := fun _ h => Or.inl h

theorem expiring_moves {w : Worker} {now : ℕ} {t : Timer} {deadlines : TimerQueue}
    (hp : w.phase = .expiring now) (hq : w.deadlines = t :: deadlines) (hdue : t.time ≤ now) :
    w.Move (if isStale w.connections t then { w with deadlines := deadlines }
      else { w with deadlines := deadlines }.work t.token
        (Desk.handleExpired t.token w.timeout)) := by
  have hphase : w.phase.loops = true := by rw [hp]; rfl
  split
  · rename_i hstale
    exact .idled (idles_pop hphase hq hstale)
  · rename_i hfresh
    have hidles := idles_pop (P := fun u => u.token = t.token) hphase hq rfl
    apply work_moves (R := fun c d => Desk.Settles t.token w.timeout
      (fun counter => counter = .timeout → c.hasStarted)
      (desk { w with deadlines := deadlines } c) d) hidles
    · intro c hc
      exact Desk.handleExpired_handles
    · intro c d hc hsettles
      have hfresh : isStale w.connections t = false := Bool.not_eq_true _ ▸ hfresh
      have ht : t ∈ w.deadlines := hq ▸ List.mem_cons_self
      exact .expired hidles hp ht hdue rfl (not_stale_generation hfresh hc) hc
        (not_stale_not_done hfresh hc) hsettles

/-- The first pace leaves its queue. -/
theorem idles_pacing {P : Timer → Prop} {w : Worker} {now : ℕ} {t : Timer} {pacing : TimerQueue}
    (hp : w.phase = .resuming now) (hq : w.pacing = t :: pacing) (hdue : t.time ≤ now) :
    Idles P w { w with pacing := pacing } where
  connections_eq := rfl
  summary_eq := rfl
  active_eq := rfl
  timeout_eq := rfl
  loops := by rw [hp]; rfl
  loops_after := by rw [hp]; rfl
  later := .refl _
  dropped := fun _ ht => Or.inl ht
  kept := fun _ ht => ht
  paces := by
    intro u hu
    rw [hq, List.mem_cons] at hu
    cases hu with
    | inl h => exact Or.inr (Or.inr ⟨now, by rw [hp]; rfl, h ▸ hdue⟩)
    | inr h => exact Or.inl h
  instant := fun _ h => Or.inl h

theorem resuming_moves {w : Worker} {now : ℕ} {t : Timer} {pacing : TimerQueue}
    (hp : w.phase = .resuming now) (hq : w.pacing = t :: pacing) (hdue : t.time ≤ now) :
    w.Move (if isStale w.connections t then { w with pacing := pacing }
      else { w with pacing := pacing }.work t.token Desk.handlePace) := by
  split
  · exact .idled (idles_pacing hp hq hdue)
  · rename_i hfresh
    have hidles : Idles (fun u => isStale w.connections u) w { w with pacing := pacing } :=
      idles_pacing hp hq hdue
    apply work_moves (R := fun c d => Desk.Turn t.token w.timeout
      (desk { w with pacing := pacing } c) d) hidles
    · intro c hc
      exact Desk.handlePace_handles
    · intro c d hc hturn
      have hdone := not_stale_not_done (Bool.not_eq_true _ ▸ hfresh) hc
      exact .handled hidles hc (.single ⟨hdone, hturn⟩)

theorem step_moves {w : Worker} (hphase : w.phase.isFinished = false) : w.Move w.step := by
  unfold step
  cases hp : w.phase with
  | opening limits => exact openPoll_moves hp
  | starting limits attempts =>
    cases limits with
    | nil => exact .entered hp
    | cons limit limits => exact startNext_moves hp
  | polling =>
    simp only
    split
    · rename_i hactive
      exact .ended hp hactive
    · exact poll_moves hp
  | handling events =>
    cases events with
    | nil => exact readClock_moves (by rw [hp]; rfl) fun _ => ⟨rfl, rfl⟩
    | cons event events => exact handling_moves hp
  | expiring now =>
    have hloops : w.phase.loops = true := by rw [hp]; rfl
    simp only
    cases hdue : due now w.deadlines with
    | none => exact readClock_moves hloops fun _ => ⟨rfl, rfl⟩
    | some popped =>
      have hmove := expiring_moves hp (due_eq_some hdue).1 (due_eq_some hdue).2
      rwa [hp] at hmove
  | resuming now =>
    have hloops : w.phase.loops = true := by rw [hp]; rfl
    simp only
    cases hdue : due now w.pacing with
    | none => exact .idled ((Idles.refl hloops).goTo rfl (.refl _) nofun)
    | some popped =>
      have hmove := resuming_moves hp (due_eq_some hdue).1 (due_eq_some hdue).2
      rwa [hp] at hmove
  | finished result =>
    rw [hp] at hphase
    cases hphase

theorem step_of_finished {w : Worker} (hphase : w.phase.isFinished = true) : w.step = w := by
  unfold step
  cases hp : w.phase with
  | finished result => rfl
  | _ =>
    rw [hp] at hphase
    cases hphase

end Worker

end Rload
