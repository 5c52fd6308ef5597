import Rload.DrawLedger
import Rload.DueTimers
import Rload.PacedRequests

/-!
# Runs without a pacer

Without a pacer no draw has a slot. Then no connection waits for a pace or opens a transport
again at its pace, and the queue of the paces stays empty.
-/

namespace Rload
open StatefulPrograms

namespace RequestSequence

variable {s s' : RequestSequence} {issued : List Drawn}

/-- The draws of the sequence get no slots. -/
structure Unpaced (s : RequestSequence) : Prop where
  pacer : s.pacer = none
  timestampPacer : s.timestampPacer = none
  stagePacer : s.stagePacer = none

theorem Unpaced.next (h : s.Unpaced) {now : ℕ} {drawn : Drawn}
    (hnext : s.next now = .ok (drawn, s')) : drawn.notBefore = none ∧ s'.Unpaced := by
  obtain ⟨⟨index, s₁⟩, hselect, hnext⟩ := ok_of_bind hnext
  obtain ⟨entry, -, hnext⟩ := ok_of_bind hnext
  obtain ⟨⟨scheduled, s₂⟩, hreserve, hnext⟩ := ok_of_bind hnext
  obtain ⟨method, -, hnext⟩ := ok_of_bind hnext
  cases hnext
  obtain ⟨hpacer, htimestamp, hstage⟩ := select_pacers hselect
  have h₁ : s₁.Unpaced :=
    ⟨hpacer.trans h.pacer, htimestamp.trans h.timestampPacer, hstage.trans h.stagePacer⟩
  simp only [reserve, h₁.pacer, h₁.timestampPacer, h₁.stagePacer] at hreserve
  cases hreserve
  exact ⟨rfl, h₁⟩

theorem Unpaced.issues (h : s.Unpaced) (hissues : s.Issues issued s') :
    (∀ drawn ∈ issued, drawn.notBefore = none) ∧ s'.Unpaced := by
  induction hissues with
  | refl => exact ⟨List.forall_mem_nil _, h⟩
  | draw _ hnext ih =>
    obtain ⟨hslot, hunpaced⟩ := ih.2.next hnext
    exact ⟨List.forall_mem_cons.mpr ⟨hslot, ih.1⟩, hunpaced⟩

theorem Unpaced.reaches (h : s.Unpaced) (hreach : s.Reaches s') : s'.Unpaced := by
  obtain ⟨issued, hissues⟩ := hreach.issues
  exact (h.issues hissues).2

end RequestSequence

namespace Connection

/-- The connection has never waited for a pace. -/
structure Unpaced (c : Connection) : Prop where
  notBefore : c.notBefore = none
  awaitingPace : c.awaitingPace = false
  reconnectAtPace : c.reconnectAtPace = false
  never : ∀ h ∈ c.history, h.isReconnect = false

variable {t t' : ℕ} {c c' : Connection}

theorem Unpaced.of_history (h : c.Unpaced) (hnotBefore : c'.notBefore = none)
    (hawaiting : c'.awaitingPace = false) (hre : c'.reconnectAtPace = false)
    {l : List Happening} (hhistory : c'.history = l ++ c.history)
    (hnew : ∀ h ∈ l, h.isReconnect = false) : c'.Unpaced := by
  refine ⟨hnotBefore, hawaiting, hre, fun happening hmem => ?_⟩
  rw [hhistory, List.mem_append] at hmem
  exact hmem.elim (hnew happening) (h.never happening)

theorem Unpaced.of_happening (h : c.Unpaced) (hnotBefore : c'.notBefore = none)
    (hawaiting : c'.awaitingPace = false) (hre : c'.reconnectAtPace = false)
    {happening : Happening} (hhistory : c'.history = happening :: c.history)
    (hnew : happening.isReconnect = false) : c'.Unpaced :=
  @of_history c c' h hnotBefore hawaiting hre [happening] hhistory
    (List.forall_mem_singleton.mpr hnew)

theorem Unpaced.watch (h : c.Unpaced) (interest : Option Interest) : (c.watch interest).Unpaced :=
  ⟨h.notBefore, h.awaitingPace, h.reconnectAtPace, h.never⟩

theorem Unpaced.hear (h : c.Unpaced) (data : List UInt8) (eof : Bool) :
    (c.hear data eof).Unpaced := by
  rw [Connection.hear]
  split
  · exact ⟨h.notBefore, h.awaitingPace, h.reconnectAtPace, h.never⟩
  · exact h.of_happening h.notBefore h.awaitingPace h.reconnectAtPace rfl rfl

/-- The assignments for a new transport. -/
theorem Unpaced.opened {assign : Connection → Connection} (h : c.Unpaced)
    (hassign : Assigns c assign) (addressIndex now : ℕ) :
    (withStream ⟨c.tls, none⟩ addressIndex now (assign c)).Unpaced := by
  cases hassign with
  | next => exact h.of_happening h.notBefore h.awaitingPace h.reconnectAtPace rfl rfl
  | retry =>
    refine h.of_history h.notBefore rfl rfl (l := [.opened _ _, .retried _]) rfl ?_
    exact List.forall_mem_cons.mpr ⟨rfl, List.forall_mem_singleton.mpr rfl⟩
  | recover =>
    refine h.of_history h.notBefore rfl rfl (l := [.opened _ _, .restarted]) rfl ?_
    exact List.forall_mem_cons.mpr ⟨rfl, List.forall_mem_singleton.mpr rfl⟩
  | resume hre =>
    rw [h.reconnectAtPace] at hre
    cases hre

/-- A move that is no draw. -/
theorem Unpaced.move (h : c.Unpaced) (hmove : Move t c c') (hquiet : c'.draws = c.draws) :
    c'.Unpaced := by
  cases hmove with
  | hear data eof => exact h.hear data eof
  | awaitPace hpace hearly =>
    rw [h.notBefore] at hpace
    cases hpace
  | begin hpace =>
    rw [Connection.begin]
    split
    · exact h.of_happening h.notBefore rfl h.reconnectAtPace rfl rfl
    · exact ⟨h.notBefore, rfl, h.reconnectAtPace, h.never⟩
  | advance hstarted hpos hle =>
    exact h.of_happening h.notBefore h.awaitingPace h.reconnectAtPace rfl rfl
  | @attempts tried made limited hspends =>
    refine h.of_history h.notBefore h.awaitingPace h.reconnectAtPace rfl fun happening hmem => ?_
    rw [List.eq_of_mem_replicate hmem]
    rfl
  | defer hstarted hpace =>
    rw [h.notBefore] at hpace
    cases hpace
  | opened hassign addressIndex => exact h.opened hassign addressIndex t
  | @answer data eof parsed hdata hdecoded =>
    have hheard := h.hear data eof
    exact hheard.of_happening hheard.notBefore hheard.awaitingPace hheard.reconnectAtPace rfl rfl
  | next drawn => exact absurd hquiet (by rw [draws_next]; omega)
  | _ => exact ⟨h.notBefore, h.awaitingPace, h.reconnectAtPace, h.never⟩

theorem Unpaced.draws {ds : List Drawn} (h : c.Unpaced) (hdraws : Draws t c ds t' c')
    (hds : ∀ drawn ∈ ds, drawn.notBefore = none) : c'.Unpaced := by
  induction hdraws with
  | refl => exact h
  | later _ _ ih => exact ih hds
  | move _ hm hquiet ih => exact (ih hds).move hm hquiet
  | next _ drawn ih =>
    obtain ⟨hdrawn, hds⟩ := List.forall_mem_cons.mp hds
    refine (ih hds).of_history hdrawn rfl rfl (l := [.drew _, .replaced _ _]) rfl ?_
    exact List.forall_mem_cons.mpr ⟨rfl, List.forall_mem_singleton.mpr rfl⟩

theorem unpaced_connected {drawn : Drawn} (hdrawn : drawn.notBefore = none)
    (addresses : List SocketAddr) (limit : ConnectionLimit) (tls : Bool) (addressIndex now : ℕ) :
    (connected addresses limit tls drawn addressIndex now).Unpaced := by
  refine ⟨hdrawn, rfl, rfl, ?_⟩
  exact List.forall_mem_cons.mpr ⟨rfl, List.forall_mem_singleton.mpr rfl⟩

theorem Unpaced.pacingDeadline_eq (h : c.Unpaced) : c.pacingDeadline = none := by
  rw [pacingDeadline, h.awaitingPace]
  rfl

end Connection

namespace Desk

variable {token timeout : ℕ} {allowed : Counter → Prop} {d d' : Desk}

/-- Nothing on the desk has to do with a pace. -/
structure Unpaced (d : Desk) : Prop where
  connection : d.connection.Unpaced
  sequence : d.world.sequence.Unpaced
  pacing : d.pacing = []

theorem scheduledPacing_of_unpaced {c : Connection} (h : c.Unpaced) (token : ℕ)
    (q : TimerQueue) : scheduledPacing token c q = q := by
  rw [scheduledPacing, h.pacingDeadline_eq]

theorem pacing_of_unpaced (hd : d.pacing = []) (hc : d'.connection.Unpaced)
    (h : d'.pacing = d.pacing ∨ d'.pacing = scheduledPacing token d'.connection d.pacing) :
    d'.pacing = [] := by
  rw [scheduledPacing_of_unpaced hc, or_self] at h
  exact h.trans hd

theorem Settles.unpaced (h : Settles token timeout allowed d d') (hd : d.Unpaced) :
    d'.Unpaced := by
  obtain ⟨hnone, hsequence⟩ := hd.sequence.issues h.issues
  have hconnection := hd.connection.draws (h.moves.quiet h.draws_eq) hnone
  exact ⟨hconnection, hsequence, pacing_of_unpaced hd.pacing hconnection h.pacing_eq⟩

theorem Turn.unpaced (h : Turn token timeout d d') (hd : d.Unpaced) : d'.Unpaced := by
  obtain ⟨ds, hissues, hdraws⟩ := h.draws
  obtain ⟨hnone, hsequence⟩ := hd.sequence.issues hissues
  have hconnection := hd.connection.draws hdraws hnone
  exact ⟨hconnection, hsequence, pacing_of_unpaced hd.pacing hconnection h.pacing_eq⟩

theorem Turns.unpaced (h : Turns token timeout d d') (hd : d.Unpaced) : d'.Unpaced := by
  induction h with
  | refl => exact hd
  | tail _ hturn ih => exact hturn.2.unpaced ih

end Desk

namespace Worker

/-- No connection has ever waited for a pace, and none is to be resumed. -/
structure Unpaced (w : Worker) : Prop where
  connections : ∀ c ∈ w.connections, c.Unpaced
  pacing : w.pacing = []

variable {w w' : Worker}

theorem Move.unpaced (hmove : w.Move w') (h : ∀ c ∈ w.connections, c.Unpaced)
    (hsequence : w.world.sequence.Unpaced) : ∀ c ∈ w'.connections, c.Unpaced := by
  have turned : ∀ {Q : Timer → Prop} {w₁ : Worker} {token : ℕ} {c : Connection} {d : Desk}
      {ds : List Drawn}, Idles Q w w₁ → w₁.connections[token]? = some c →
      w₁.world.sequence.Issues ds d.world.sequence →
      Connection.Draws w₁.world.clock c ds d.world.clock d.connection →
      ∀ c ∈ (w₁.withDesk token d).connections, c.Unpaced := by
    intro Q w₁ token c d ds hidles hc hissues hdraws c' hc'
    rw [hidles.later.sequence_eq] at hissues
    have hnone := (hsequence.issues hissues).1
    rw [hidles.connections_eq] at hc
    cases mem_connections_withDesk hc' with
    | inl hmem => exact h c' (hidles.connections_eq ▸ hmem)
    | inr heq =>
      rw [heq]
      exact (h c (List.mem_of_getElem? hc)).draws hdraws hnone
  cases hmove with
  | halted hhalts => rwa [hhalts.connections_eq]
  | connected hphase hw =>
    obtain ⟨time, -, -, hnext⟩ := hw.next_eq
    intro c hc
    cases List.mem_append.mp hc with
    | inl hmem => exact h c hmem
    | inr hnew =>
      rw [List.mem_singleton.mp hnew]
      exact (Connection.unpaced_connected (hsequence.next hnext).1 _ _ _ _ _).watch _
  | idled hidles => rwa [hidles.connections_eq]
  | handled hidles hc hturns =>
    obtain ⟨ds, hissues, hdraws⟩ := hturns.draws
    exact turned hidles hc hissues hdraws
  | expired hidles hphase ht hdue htoken hgeneration hc hdone hsettles =>
    exact turned hidles hc hsettles.issues (hsettles.moves.quiet hsettles.draws_eq)
  | _ => exact h

theorem scheduleAll_pacing (timeout : ℕ) {connections : List Connection}
    (h : ∀ c ∈ connections, c.Unpaced) (deadlines pacing : TimerQueue) :
    (scheduleAll timeout connections deadlines pacing).2 = pacing := by
  refine scheduleAll_induction (P := fun q => q.2 = pacing) rfl ?_
  intro p hp q hq
  have hunpaced := h p.1 (List.fst_mem_of_mem_zipIdx hp)
  exact (Desk.scheduledPacing_of_unpaced hunpaced p.2 q.2).trans hq

/-- A handler schedules no pace. -/
theorem work_pacing (h : w.Unpaced) (hsequence : w.world.sequence.Unpaced) (token : ℕ)
    {handler : DeskM Unit}
    (hhandler : ∀ d : Desk, d.Unpaced →
      Ensures handler d (fun _ d' => d'.Unpaced) fun _ _ => True) :
    (w.work token handler).pacing = [] := by
  unfold work
  split
  · exact h.pacing
  · rename_i c hc
    split
    · exact h.pacing
    · rename_i d hd
      have hdesk : (w.desk c).Unpaced :=
        ⟨h.connections c (List.mem_of_getElem? hc), hsequence, h.pacing⟩
      exact ((hhandler _ hdesk).of_ok hd).pacing

theorem handleEvent_unpaced (token timeout : ℕ) (event : Event) (d : Desk) (hd : d.Unpaced) :
    Ensures (Desk.handleEvent token timeout event) d (fun _ d' => d'.Unpaced) fun _ _ => True :=
  (Desk.handleEvent_takes event).mono (fun _ _ hturns => hturns.unpaced hd) fun _ _ _ => ⟨⟩

theorem handleExpired_unpaced (token timeout : ℕ) (d : Desk) (hd : d.Unpaced) :
    Ensures (Desk.handleExpired token timeout) d (fun _ d' => d'.Unpaced) fun _ _ => True :=
  Ensures.mono Desk.handleExpired_handles (fun _ _ hsettles => hsettles.unpaced hd)
    fun _ _ _ => ⟨⟩

theorem step_pacing (h : w.Unpaced) (hsequence : w.world.sequence.Unpaced) :
    w.step.pacing = [] := by
  cases hphase : w.phase with
  | opening limits =>
    simp only [step, hphase, openPoll]
    split <;> exact h.pacing
  | starting limits attempts =>
    cases limits with
    | nil =>
      simp only [step, hphase, enterLoop]
      exact (scheduleAll_pacing w.timeout h.connections _ _).trans h.pacing
    | cons limit limits =>
      simp only [step, hphase]
      exact (startNext_queues limit limits attempts w).2.trans h.pacing
  | polling =>
    simp only [step, hphase, poll]
    split
    · exact h.pacing
    · have hdropped : w.discardStale.pacing = [] := by
        rw [discardStale, h.pacing]
        rfl
      split <;> exact hdropped
  | handling events =>
    cases events with
    | nil =>
      simp only [step, hphase, readClock, now_eq]
      exact h.pacing
    | cons event events =>
      simp only [step, hphase]
      exact work_pacing (w := w.goTo (.handling events)) ⟨h.connections, h.pacing⟩ hsequence _
        (handleEvent_unpaced _ _ event)
  | expiring now =>
    simp only [step, hphase]
    split
    · simp only [readClock, now_eq]
      exact h.pacing
    · rename_i t deadlines hdue
      split
      · exact h.pacing
      · exact work_pacing (w := { w with deadlines := deadlines, phase := .expiring now })
          ⟨h.connections, h.pacing⟩ hsequence _ (handleExpired_unpaced _ _)
  | resuming now =>
    simp only [step, hphase, h.pacing, due]
    exact h.pacing
  | finished result =>
    rw [step_of_finished (by rw [hphase]; rfl)]
    exact h.pacing

theorem Unpaced.step (h : w.Unpaced) (hsequence : w.world.sequence.Unpaced) : w.step.Unpaced := by
  refine ⟨?_, step_pacing h hsequence⟩
  cases hphase : w.phase.isFinished with
  | true =>
    rw [step_of_finished hphase]
    exact h.connections
  | false => exact (step_moves hphase).unpaced h.connections hsequence

end Worker

namespace RunInput

/-- In every run without a pacer no connection ever waits for a pace. -/
theorem unpaced (input : RunInput) (hunpaced : input.prepared.sequence.Unpaced)
    (schedule : List ℕ) :
    (input.after schedule).shared.Unpaced ∧
      ∀ w ∈ (input.after schedule).components, w.Unpaced := by
  apply SharedResource.run_invariant Worker.shareStep
    (I := fun r => r.shared.Unpaced ∧ ∀ w ∈ r.components, w.Unpaced)
  · rintro r i w ⟨hshared, hworkers⟩ hw
    have hunpaced := hworkers w (List.mem_of_getElem? hw)
    have hsharing : (w.sharing r.shared).Unpaced := ⟨hunpaced.connections, hunpaced.pacing⟩
    refine ⟨hshared.reaches (w.sharing r.shared).step_reach, fun v hv => ?_⟩
    cases List.mem_or_eq_of_mem_set hv with
    | inl hmem => exact hworkers v hmem
    | inr heq =>
      rw [heq]
      exact hsharing.step hshared
  · refine ⟨hunpaced, fun w hw => ?_⟩
    rw [start_components, List.mem_map] at hw
    obtain ⟨⟨limits, worker⟩, -, rfl⟩ := hw
    exact ⟨List.forall_mem_nil _, rfl⟩

end RunInput

end Rload
