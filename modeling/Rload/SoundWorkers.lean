import Rload.DueTimers
import Rload.SoundHandlers

/-!
# Workers that end by errors alone

The connections of a worker are sound, and its events and timers are for connections that there
are. So its steps end it by errors alone, where the draws from the sequence do so, and this holds
in any interleaving of the workers of a run.
-/

namespace Rload
open StatefulPrograms

namespace Desk

variable {token timeout : ℕ} {allowed : Counter → Prop} {P : Timer → Prop} {d d' : Desk}

/-- What holds of all timers on the desk. -/
structure Timers (P : Timer → Prop) (d : Desk) : Prop where
  deadlines : ∀ t ∈ d.deadlines, P t
  pacing : ∀ t ∈ d.pacing, P t

theorem forall_scheduledDeadlines {q : TimerQueue} (hP : ∀ t : Timer, t.token = token → P t)
    (hq : ∀ t ∈ q, P t) (timeout : ℕ) (c : Connection) :
    ∀ t ∈ scheduledDeadlines token timeout c q, P t := by
  intro t ht
  obtain hold | hnew := mem_scheduledDeadlines.mp ht
  · exact hq t hold
  · exact hP t hnew.1

theorem forall_scheduledPacing {q : TimerQueue} (hP : ∀ t : Timer, t.token = token → P t)
    (hq : ∀ t ∈ q, P t) (c : Connection) : ∀ t ∈ scheduledPacing token c q, P t := by
  rw [scheduledPacing]
  split
  · intro t ht
    obtain rfl | hold := (List.mem_orderedInsert Timer.Before).mp ht
    · exact hP _ rfl
    · exact hq t hold
  · exact hq

theorem Timers.of_eq (h : d.Timers P) (hP : ∀ t : Timer, t.token = token → P t)
    (hdeadlines : d'.deadlines = d.deadlines ∨
      d'.deadlines = scheduledDeadlines token timeout d'.connection d.deadlines)
    (hpacing : d'.pacing = d.pacing ∨
      d'.pacing = scheduledPacing token d'.connection d.pacing) : d'.Timers P := by
  constructor
  · obtain hsame | hnew := hdeadlines
    · exact hsame ▸ h.deadlines
    · exact hnew ▸ forall_scheduledDeadlines hP h.deadlines _ _
  · obtain hsame | hnew := hpacing
    · exact hsame ▸ h.pacing
    · exact hnew ▸ forall_scheduledPacing hP h.pacing _

/-- A handler schedules timers for its own connection alone. -/
def SchedulesOwn (token : ℕ) (handler : DeskM Unit) : Prop :=
  ∀ (P : Timer → Prop) (d : Desk), (∀ t : Timer, t.token = token → P t) → d.Timers P →
    Ensures handler d (fun _ d' => d'.Timers P) fun _ _ => True

theorem Turns.timers (h : Turns token timeout d d') (hP : ∀ t : Timer, t.token = token → P t)
    (hd : d.Timers P) : d'.Timers P := by
  induction h with
  | refl => exact hd
  | tail _ hturn ih => exact ih.of_eq hP hturn.2.deadlines_eq hturn.2.pacing_eq

theorem handleEvent_schedulesOwn (token timeout : ℕ) (event : Event) :
    SchedulesOwn token (handleEvent token timeout event) := by
  intro P d hP hd
  exact (handleEvent_takes event).mono (fun _ _ hturns => Turns.timers hturns hP hd)
    fun _ _ _ => ⟨⟩

theorem handleExpired_schedulesOwn (token timeout : ℕ) :
    SchedulesOwn token (handleExpired token timeout) := by
  intro P d hP hd
  refine Ensures.mono handleExpired_handles (fun _ _ hsettles => ?_) fun _ _ _ => ⟨⟩
  exact hd.of_eq hP (hsettles.deadlines_eq.imp And.left id) hsettles.pacing_eq

theorem handlePace_schedulesOwn (token : ℕ) : SchedulesOwn token handlePace := by
  intro P d hP hd
  have hturn : Ensures handlePace d (fun _ d' => Turn token 0 d d')
      fun e d' => d.world.Ends e d'.world := handlePace_handles
  exact hturn.mono (fun _ _ hturn => hd.of_eq hP hturn.deadlines_eq hturn.pacing_eq)
    fun _ _ _ => ⟨⟩

end Desk

theorem Connection.connect_safe (allowed : Halt → Prop) (addresses : List SocketAddr)
    (limit : ConnectionLimit) (tls : Bool) :
    SafeWorld allowed (connect addresses limit tls) Connection.Sound :=
  (Rload.connectFrom_safe allowed _ _ _).bind fun _ _ =>
    (Transport.new_safe allowed true tls).bind fun _ _ =>
      (World.drawRequest_safe allowed).bind fun _ hdrawn =>
        (World.now_safe allowed).bind fun _ _ =>
          .pure ⟨hdrawn, ResponseDecoder.sound_new _⟩

namespace Worker

theorem untilFirst_safe (allowed : Halt → Prop) (q : TimerQueue) :
    SafeWorld allowed (untilFirst q) fun _ => True := by
  unfold untilFirst
  split
  · exact .pure ⟨⟩
  · exact (World.now_safe allowed).bind fun _ _ => .pure ⟨⟩

theorem pollTimeout_safe (allowed : Halt → Prop) (deadlines pacing : TimerQueue) :
    SafeWorld allowed (pollTimeout deadlines pacing) fun _ => True := by
  refine (untilFirst_safe allowed deadlines).bind fun deadlineTimeout _ =>
    (untilFirst_safe allowed pacing).bind fun pacingTimeout _ => ?_
  split
  · exact .pure ⟨⟩
  · exact .pure ⟨⟩

theorem pollEvents_safe (allowed : Halt → Prop) (timeout : Option ℕ) :
    SafeWorld allowed (pollEvents timeout) fun _ => True := by
  refine Safe.bind (Q := fun _ => True) (fun _ hw => ⟨⟨⟩, hw⟩) fun before _ =>
    (World.service_safe allowed).bind fun reply _ => .ite (fun _ => ?_) fun _ => .pure ⟨⟩
  exact Safe.bind (Q := fun _ => True) (.modify (fun _ hw => hw) ⟨⟩) fun _ _ => .pure ⟨⟩

/-- A token that is one of a connection. -/
def Has (w : Worker) (token : ℕ) : Prop := token < w.connections.length

/-- The connections are sound, the timers and events are for connections that there are, and an
error that ended the worker was expected. -/
structure Intact (allowed : Halt → Prop) (w : Worker) : Prop where
  connections : ∀ c ∈ w.connections, c.Sound
  deadlines : ∀ t ∈ w.deadlines, w.Has t.token
  pacing : ∀ t ∈ w.pacing, w.Has t.token
  events : ∀ events, w.phase = .handling events → ∀ event ∈ events, w.Has event.token
  halted : ∀ halt, w.phase = .finished (.error halt) → halt.Expected allowed

variable {allowed : Halt → Prop} {w w' : Worker}

/-- The worker goes on to a phase that is no end. -/
theorem Intact.goes (h : w.Intact allowed) (hconnections : w'.connections = w.connections)
    (hdeadlines : ∀ t ∈ w'.deadlines, t ∈ w.deadlines) (hpacing : ∀ t ∈ w'.pacing, t ∈ w.pacing)
    (hevents : ∀ events, w'.phase = .handling events → ∀ event ∈ events, w.Has event.token)
    (hrunning : ∀ halt, w'.phase ≠ .finished (.error halt)) : w'.Intact allowed where
  connections := hconnections ▸ h.connections
  deadlines t ht := by
    rw [Has, hconnections]
    exact h.deadlines t (hdeadlines t ht)
  pacing t ht := by
    rw [Has, hconnections]
    exact h.pacing t (hpacing t ht)
  events events hphase event hmem := by
    rw [Has, hconnections]
    exact hevents events hphase event hmem
  halted halt hphase := absurd hphase (hrunning halt)

/-- The phase handles no events and is no error. -/
def isQuiet : Phase → Bool
  | .handling _ | .finished (.error _) => false
  | _ => true

theorem Intact.rests (h : w.Intact allowed) (hconnections : w'.connections = w.connections)
    (hdeadlines : ∀ t ∈ w'.deadlines, t ∈ w.deadlines) (hpacing : ∀ t ∈ w'.pacing, t ∈ w.pacing)
    (hquiet : isQuiet w'.phase = true) : w'.Intact allowed := by
  refine h.goes hconnections hdeadlines hpacing (fun events hphase => ?_) fun halt hphase => ?_
  · rw [hphase] at hquiet
    cases hquiet
  · rw [hphase] at hquiet
    cases hquiet

theorem Intact.halt (h : w.Intact allowed) {halt : Halt} (hexpected : halt.Expected allowed)
    (world : World) : (w.halt halt world).Intact allowed where
  connections := h.connections
  deadlines := h.deadlines
  pacing := h.pacing
  events := nofun
  halted := by
    rintro _ ⟨⟩
    exact hexpected

/-- A handler that is safe runs on a connection that there is. -/
theorem Intact.work (h : w.Intact allowed) (hsequence : w.world.sequence.Sound allowed) {token : ℕ}
    (htoken : w.Has token) {handler : DeskM Unit} (hsafe : SafeDesk allowed handler fun _ => True)
    (hown : Desk.SchedulesOwn token handler) : (w.work token handler).Intact allowed := by
  unfold Worker.work
  split
  · rename_i hnone
    exact absurd htoken (Nat.not_lt_of_le (List.getElem?_eq_none_iff.mp hnone))
  · rename_i c hc
    have hsession : (w.desk c).session.Sound allowed :=
      ⟨h.connections c (List.mem_of_getElem? hc), hsequence⟩
    have hspec := hsafe (w.desk c) hsession
    split
    · rename_i halt d hrun
      exact h.halt (hspec.of_error hrun).1 d.world
    · rename_i d hrun
      have hconnection := (hspec.of_ok hrun).2.1
      have htimers := (hown (fun t => w.Has t.token) (w.desk c) (fun t ht => by rwa [ht])
        ⟨h.deadlines, h.pacing⟩).of_ok hrun
      have hlength : (w.connections.set token d.connection).length = w.connections.length :=
        List.length_set
      have has : ∀ token', w.Has token' → (w.withDesk token d).Has token' :=
        fun token' hlt => hlt.trans_eq hlength.symm
      refine ⟨fun c' hc' => ?_, fun t ht => has _ (htimers.deadlines t ht),
        fun t ht => has _ (htimers.pacing t ht),
        fun events hphase event hmem => has _ (h.events events hphase event hmem), h.halted⟩
      cases List.mem_or_eq_of_mem_set hc' with
      | inl hold => exact h.connections c' hold
      | inr hnew =>
        rw [hnew]
        exact hconnection

theorem scheduleAll_has (timeout : ℕ) (connections : List Connection)
    {deadlines pacing : TimerQueue} (hdeadlines : ∀ t ∈ deadlines, t.token < connections.length)
    (hpacing : ∀ t ∈ pacing, t.token < connections.length) :
    (∀ t ∈ (scheduleAll timeout connections deadlines pacing).1,
        t.token < connections.length) ∧
      ∀ t ∈ (scheduleAll timeout connections deadlines pacing).2,
        t.token < connections.length := by
  refine scheduleAll_induction (P := fun q => (∀ t ∈ q.1, t.token < connections.length) ∧
    ∀ t ∈ q.2, t.token < connections.length) ⟨hdeadlines, hpacing⟩ ?_
  intro p hp q hq
  have hindex := List.mem_zipIdx_iff_getElem?.mp hp
  have hown : ∀ t : Timer, t.token = p.2 → t.token < connections.length :=
    fun t ht => ht ▸ (List.getElem?_eq_some_iff.mp hindex).1
  exact ⟨Desk.forall_scheduledDeadlines hown hq.1 _ _, Desk.forall_scheduledPacing hown hq.2 _⟩

theorem attemptFailed_intact (h : w.Intact allowed) (limit : ConnectionLimit)
    (limits : List ConnectionLimit) (attempts : ℕ)
    (hphase : w.phase = .starting (limit :: limits) attempts) :
    (attemptFailed limit limits attempts w).Intact allowed := by
  unfold attemptFailed
  cases limit with
  | deadline deadline =>
    simp only [now_eq, sleep_eq]
    split
    · exact h.goes rfl (fun _ ht => ht) (fun _ ht => ht) nofun nofun
    · refine h.goes rfl (fun _ ht => ht) (fun _ ht => ht) h.events fun halt hhalt => ?_
      exact absurd (hphase.symm.trans hhalt) nofun
  | requests requests =>
    simp only [sleep_eq]
    split
    · exact h.goes rfl (fun _ ht => ht) (fun _ ht => ht) nofun nofun
    · exact h.goes rfl (fun _ ht => ht) (fun _ ht => ht) nofun nofun

theorem startNext_intact (h : w.Intact allowed) (hsequence : w.world.sequence.Sound allowed)
    (limit : ConnectionLimit) (limits : List ConnectionLimit) (attempts : ℕ)
    (hphase : w.phase = .starting (limit :: limits) attempts) :
    (startNext limit limits attempts w).Intact allowed := by
  have hspec := Connection.connect_safe allowed w.addresses limit w.tls w.world hsequence
  unfold startNext
  split
  · rename_i halt world hconnect
    split
    · refine attemptFailed_intact ?_ limit limits attempts hphase
      exact ⟨h.connections, h.deadlines, h.pacing, h.events, h.halted⟩
    · exact h.halt (hspec.of_error hconnect).1 world
  · rename_i c world hconnect
    obtain ⟨hc, hworld⟩ := hspec.of_ok hconnect
    have hregister := Connection.askRegistry_safe allowed .register (some ⟨true⟩) ⟨c, world⟩
      ⟨hc, hworld⟩
    split
    · rename_i halt s herror
      exact h.halt (hregister.of_error herror).1 s.world
    · rename_i s hok
      have has : ∀ token, w.Has token → token < (w.connections ++ [s.connection]).length := by
        intro token hlt
        rw [List.length_append]
        exact Nat.lt_add_right _ hlt
      refine ⟨fun c' hc' => ?_, fun t ht => has _ (h.deadlines t ht),
        fun t ht => has _ (h.pacing t ht), nofun, nofun⟩
      cases List.mem_append.mp hc' with
      | inl hold => exact h.connections c' hold
      | inr hnew =>
        rw [List.mem_singleton.mp hnew]
        exact (hregister.of_ok hok).2.1

theorem poll_intact (h : w.Intact allowed) (hsequence : w.world.sequence.Sound allowed) :
    w.poll.Intact allowed := by
  have hsafe : SafeWorld allowed (do
      let timeout ← pollTimeout w.deadlines w.pacing
      pollEvents timeout) fun _ => True :=
    (pollTimeout_safe allowed w.deadlines w.pacing).bind fun timeout _ =>
      pollEvents_safe allowed timeout
  have hspec := hsafe w.world hsequence
  unfold poll
  simp only
  split
  · rename_i halt world herror
    exact h.halt (hspec.of_error herror).1 world
  · refine h.goes rfl (fun _ ht => ht) (fun _ ht => ht) ?_ nofun
    rintro _ ⟨⟩ event hmem
    have hwatched := (List.mem_filter.mp hmem).2
    rw [isWatched] at hwatched
    by_contra hnone
    rw [List.getElem?_eq_none (Nat.le_of_not_lt hnone)] at hwatched
    cases hwatched

theorem Intact.step (h : w.Intact allowed) (hsequence : w.world.sequence.Sound allowed) :
    w.step.Intact allowed := by
  cases hphase : w.phase with
  | opening limits =>
    have hspec := World.service_safe allowed w.world hsequence
    simp only [Worker.step, hphase, openPoll]
    split
    · rename_i halt world herror
      exact h.halt (hspec.of_error herror).1 world
    · exact h.rests rfl (fun _ ht => ht) (fun _ ht => ht) rfl
  | starting limits attempts =>
    cases limits with
    | nil =>
      simp only [Worker.step, hphase, enterLoop]
      obtain ⟨hdeadlines, hpacing⟩ := scheduleAll_has w.timeout w.connections h.deadlines h.pacing
      refine ⟨h.connections, hdeadlines, hpacing, fun _ hevents => ?_, fun _ hhalt => ?_⟩
      · cases hevents
      · cases hhalt
    | cons limit limits =>
      simp only [Worker.step, hphase]
      exact startNext_intact h hsequence limit limits attempts hphase
  | polling =>
    simp only [Worker.step, hphase]
    split
    · exact h.rests rfl (fun _ ht => ht) (fun _ ht => ht) rfl
    · have hdropped : w.discardStale.Intact allowed := by
        refine h.goes rfl (fun _ ht => (List.dropWhile_sublist _).subset ht)
          (fun _ ht => (List.dropWhile_sublist _).subset ht) h.events fun halt hhalt => ?_
        cases hphase.symm.trans hhalt
      exact poll_intact hdropped hsequence
  | handling events =>
    cases events with
    | nil =>
      simp only [Worker.step, hphase, readClock, now_eq]
      exact h.rests rfl (fun _ ht => ht) (fun _ ht => ht) rfl
    | cons event events =>
      obtain ⟨hevent, hevents⟩ := List.forall_mem_cons.mp (h.events _ hphase)
      have hnext : (w.goTo (.handling events)).Intact allowed := by
        refine h.goes rfl (fun _ ht => ht) (fun _ ht => ht) ?_ ?_
        · rintro _ ⟨⟩
          exact hevents
        · rintro _ ⟨⟩
      simp only [Worker.step, hphase]
      exact hnext.work hsequence hevent (Desk.handleEvent_safe allowed _ _ event)
        (Desk.handleEvent_schedulesOwn _ _ event)
  | expiring now =>
    simp only [Worker.step, hphase]
    split
    · simp only [readClock, now_eq]
      exact h.rests rfl (fun _ ht => ht) (fun _ ht => ht) rfl
    · rename_i t deadlines hdue
      obtain ⟨hqueue, -⟩ := due_eq_some hdue
      have hpopped : Intact allowed { w with deadlines := deadlines, phase := .expiring now } :=
        h.rests rfl (fun u hu => hqueue ▸ List.mem_cons_of_mem t hu) (fun _ ht => ht) rfl
      split
      · exact hpopped
      · exact hpopped.work hsequence (h.deadlines t (hqueue ▸ List.mem_cons_self))
          (Desk.handleExpired_safe allowed _ _) (Desk.handleExpired_schedulesOwn _ _)
  | resuming now =>
    simp only [Worker.step, hphase]
    split
    · exact h.rests rfl (fun _ ht => ht) (fun _ ht => ht) rfl
    · rename_i t pacing hdue
      obtain ⟨hqueue, -⟩ := due_eq_some hdue
      have hpopped : Intact allowed { w with pacing := pacing, phase := .resuming now } :=
        h.rests rfl (fun _ ht => ht) (fun u hu => hqueue ▸ List.mem_cons_of_mem t hu) rfl
      split
      · exact hpopped
      · exact hpopped.work hsequence (h.pacing t (hqueue ▸ List.mem_cons_self))
          (Desk.handlePace_safe allowed) (Desk.handlePace_schedulesOwn _)
  | finished result =>
    rw [step_of_finished (by rw [hphase]; rfl)]
    exact h

end Worker

namespace RunInput

/-- The workers of a run stay intact if the draws from its sequence are. -/
theorem intact (input : RunInput) {allowed : Halt → Prop}
    (hsound : input.prepared.sequence.Sound allowed) (schedule : List ℕ) :
    (input.after schedule).shared.Sound allowed ∧
      ∀ w ∈ (input.after schedule).components, w.Intact allowed := by
  apply SharedResource.run_invariant Worker.shareStep
    (I := fun r => r.shared.Sound allowed ∧ ∀ w ∈ r.components, w.Intact allowed)
  · rintro r i w ⟨hshared, hworkers⟩ hw
    have hw := hworkers w (List.mem_of_getElem? hw)
    have hsharing : (w.sharing r.shared).Intact allowed :=
      ⟨hw.connections, hw.deadlines, hw.pacing, hw.events, hw.halted⟩
    refine ⟨hshared.reaches (w.sharing r.shared).step_reach, fun v hv => ?_⟩
    cases List.mem_or_eq_of_mem_set hv with
    | inl hmem => exact hworkers v hmem
    | inr heq =>
      rw [heq]
      exact hsharing.step hshared
  · refine ⟨hsound, fun w hw => ?_⟩
    rw [start_components, List.mem_map] at hw
    obtain ⟨⟨limits, worker⟩, -, rfl⟩ := hw
    exact ⟨List.forall_mem_nil _, List.forall_mem_nil _, List.forall_mem_nil _, nofun, nofun⟩

end RunInput

end Rload
