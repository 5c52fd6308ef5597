import Rload.EarlyResponses
import Rload.ResponseFragments

/-!
# What a new transport finds

A transport that replaces another should find nothing of it: no part of the request written, no
request started, and a new decoder. It finds that where the methods that do not reset these
parts, `retry_address` and `resume_at_pace`, meet a request that is not started and an
untouched decoder. Then the decoder knows the bytes of the current transport alone.
-/

namespace Rload
open Connection

namespace Happening

/-- The bytes that the current transport has brought since the decoder was last a new one. -/
def ownBytes : List Happening → List UInt8
  | [] => []
  | .received bytes _ :: history => ownBytes history ++ bytes
  | .opened _ _ :: _ | .drew _ :: _ | .restarted :: _ => []
  | _ :: history => ownBytes history

/-- No transport has brought bytes since the decoder was last a new one. -/
def isQuiet : List Happening → Bool
  | [] => true
  | .received _ _ :: _ => false
  | .drew _ :: _ | .restarted :: _ => true
  | _ :: history => isQuiet history

/-- Where a connection keeps its request and its decoder for a new transport, the request is
not started and the decoder untouched. -/
def reopensUntouched : List Happening → Bool
  | [] => true
  | .retried started :: history | .reconnectedAtPace started :: history =>
    !started && isQuiet history && reopensUntouched history
  | _ :: history => reopensUntouched history

theorem ownBytes_of_quiet {history : List Happening} (h : isQuiet history = true) :
    ownBytes history = [] := by
  induction history with
  | nil => rfl
  | cons happening history ih =>
    cases happening with
    | received bytes started => cases h
    | drew entry => rfl
    | opened left time => rfl
    | restarted => rfl
    | _ => exact ih h

theorem ownBytes_attempted (n : ℕ) (history : List Happening) :
    ownBytes (List.replicate n .attempted ++ history) = ownBytes history := by
  induction n with
  | zero => rfl
  | succ n ih => exact ih

theorem isQuiet_attempted (n : ℕ) (history : List Happening) :
    isQuiet (List.replicate n .attempted ++ history) = isQuiet history := by
  induction n with
  | zero => rfl
  | succ n ih => exact ih

theorem reopensUntouched_attempted (n : ℕ) (history : List Happening) :
    reopensUntouched (List.replicate n .attempted ++ history) = reopensUntouched history := by
  induction n with
  | zero => rfl
  | succ n ih => exact ih

end Happening

namespace Connection

open Happening

/-- Every transport found nothing of the one before it. -/
def FindsNothing (c : Connection) : Prop :=
  ∀ left time, Happening.opened left time ∈ c.history → left = ⟨0, false, true⟩

/-- What the decoder of the current request makes of the bytes. -/
def decoding (c : Connection) (bytes : List UInt8) :
    Except Halt (Option ParsedResponse) × ResponseDecoder :=
  (freshDecoder c.method).feed bytes false

/-- The state of a connection is that of its own transport. -/
structure Owns (c : Connection) : Prop where
  findsNothing : c.FindsNothing
  decoder_eq : c.decoder = (c.decoding (ownBytes c.history)).2
  goes : c.done = false → (c.decoding (ownBytes c.history)).1 = .ok none
  unwritten : c.started = none → c.writeOffset = 0

def OwnsIfUntouched (c : Connection) : Prop := reopensUntouched c.history = true → c.Owns

variable {c c' : Connection}

theorem decoding_nil (c : Connection) : c.decoding [] = (.ok none, freshDecoder c.method) :=
  feed_new_nil _ _

theorem decoding_append {bytes : List UInt8} (h : (c.decoding bytes).1 = .ok none)
    (data : List UInt8) : c.decoding (bytes ++ data) = (c.decoding bytes).2.feed data false := by
  have hsane : (freshDecoder c.method).body.Sane := trivial
  exact (ResponseDecoder.feed_append hsane h data false).1

theorem ownBytes_hear (data : List UInt8) (eof : Bool) (c : Connection) :
    ownBytes (c.hear data eof).history = ownBytes c.history ++ data := by
  rw [hear_history]
  split
  · rename_i hdata
    rw [hdata, List.append_nil]
  · rfl

theorem reopensUntouched_hear (data : List UInt8) (eof : Bool) (c : Connection) :
    reopensUntouched (c.hear data eof).history = reopensUntouched c.history := by
  rw [hear_history]
  split <;> rfl

theorem FindsNothing.hear (h : c.FindsNothing) (data : List UInt8) (eof : Bool) :
    (c.hear data eof).FindsNothing := by
  intro left time hleft
  rw [hear_history] at hleft
  split at hleft
  · exact h left time hleft
  · cases hleft with
    | tail _ hleft => exact h left time hleft

theorem Owns.hear_decoder (h : c.Owns) (hopen : c.done = false) (data : List UInt8) (eof : Bool) :
    (c.hear data eof).decoder = (c.decoding (ownBytes c.history ++ data)).2 := by
  rw [decoding_append (h.goes hopen), ← h.decoder_eq, Connection.hear_decoder]
  exact ResponseDecoder.feed_eof _ _ _

theorem Owns.hear {data : List UInt8} {eof : Bool} (h : c.Owns) (hopen : c.done = false)
    (hgoes : Continues c data eof) : (c.hear data eof).Owns where
  findsNothing := h.findsNothing.hear data eof
  decoder_eq := by
    rw [h.hear_decoder hopen, ownBytes_hear, decoding, decoding, hear_method]
  goes _ := by
    rw [ownBytes_hear, decoding, hear_method]
    cases hgoes with
    | inl hdata =>
      rw [hdata, List.append_nil]
      exact h.goes hopen
    | inr hdecoded =>
      have happend := decoding_append (h.goes hopen) data
      rw [decoding] at happend
      rw [happend, ← h.decoder_eq]
      obtain ⟨rfl, hdecoded⟩ := hdecoded
      exact hdecoded
  unwritten hstarted := by
    rw [hear_started] at hstarted
    have hoffset : (c.hear data eof).writeOffset = c.writeOffset :=
      congrArg (·.writeOffset) (readFrame_hear data eof c)
    rw [hoffset]
    exact h.unwritten hstarted

/-- What is not about the decoder, the transport or the bytes of the request changes nothing. -/
theorem Owns.of_same (h : c.Owns)
    (hopened : ∀ left time, Happening.opened left time ∈ c'.history →
      Happening.opened left time ∈ c.history)
    (hown : ownBytes c'.history = ownBytes c.history) (hdecoder : c'.decoder = c.decoder)
    (hmethod : c'.method = c.method) (hdone : c'.done = false → c.done = false)
    (hunwritten : c'.started = none → c.started = none ∧ c'.writeOffset = c.writeOffset) :
    c'.Owns where
  findsNothing left time hleft := h.findsNothing left time (hopened left time hleft)
  decoder_eq := by
    rw [hdecoder, hown, h.decoder_eq, decoding, decoding, hmethod]
  goes hopen := by
    rw [hown, decoding, hmethod]
    exact h.goes (hdone hopen)
  unwritten hstarted := by
    obtain ⟨hbefore, hoffset⟩ := hunwritten hstarted
    rw [hoffset]
    exact h.unwritten hbefore

theorem Reads.owns (h : Reads c c') (hopen : c.done = false) (howns : c.OwnsIfUntouched) :
    c'.OwnsIfUntouched := by
  induction h with
  | refl => exact howns
  | hear h hgoes ih =>
    intro huntouched
    rw [reopensUntouched_hear] at huntouched
    have hopen' := (congrArg (·.done) h.kept).trans hopen
    exact (ih huntouched).hear hopen' hgoes

theorem Exchange.owns {t t' : ℕ} (h : Exchange t t' c c') (hopen : c.done = false)
    (howns : c.OwnsIfUntouched) : c'.OwnsIfUntouched := by
  induction h with
  | refl => exact howns
  | later _ hle ih => exact ih hopen howns
  | awaitPace _ hpace hearly ih =>
    rw [Connection.awaitPace]
    split
    · exact ih hopen howns
    · intro huntouched
      exact (ih hopen howns huntouched).of_same (fun _ _ h => h) rfl rfl rfl id fun h => ⟨h, rfl⟩
  | begin _ hpace ih =>
    rw [Connection.begin]
    split
    · intro huntouched
      refine (ih hopen howns huntouched).of_same (fun left time hleft => ?_) rfl rfl rfl id
        fun hnone => absurd hnone (Option.some_ne_none _)
      cases hleft with
      | tail _ hleft => exact hleft
    · intro huntouched
      exact (ih hopen howns huntouched).of_same (fun _ _ h => h) rfl rfl rfl id fun h => ⟨h, rfl⟩
  | @advance t' c c' h n hstarted hpos hle ih =>
    intro huntouched
    refine (ih hopen howns huntouched).of_same (fun left time hleft => ?_) rfl rfl rfl id
      fun hnone => ?_
    · cases hleft with
      | tail _ hleft => exact hleft
    · rw [show c'.started = none from hnone] at hstarted
      cases hstarted
  | watch _ interest ih =>
    intro huntouched
    exact (ih hopen howns huntouched).of_same (fun _ _ h => h) rfl rfl rfl id fun h => ⟨h, rfl⟩

/-- A new transport that finds nothing. -/
theorem owns_opened {stream : Transport} {addressIndex now : ℕ} {interest : Option Interest}
    (hfinds : c.FindsNothing) (hleft : c.leftover = ⟨0, false, true⟩) :
    ((withStream stream addressIndex now c).watch interest).Owns where
  findsNothing left time hmem := by
    cases hmem with
    | head => exact hleft
    | tail _ hmem => exact hfinds left time hmem
  decoder_eq := by
    have hfresh : c.decoder = freshDecoder c.method := by
      simpa [leftover] using congrArg Leftover.fresh hleft
    exact hfresh
  goes _ := rfl
  unwritten _ := congrArg Leftover.writeOffset hleft

/-- A connection that is not started and has an untouched decoder leaves nothing. -/
theorem Owns.leftover_eq (h : c.Owns) (hstarted : c.hasStarted = false)
    (hquiet : isQuiet c.history = true) : c.leftover = ⟨0, false, true⟩ := by
  have hnone : c.started = none := by simpa [hasStarted] using hstarted
  have hdecoder := h.decoder_eq
  rw [ownBytes_of_quiet hquiet, decoding_nil] at hdecoder
  rw [leftover, h.unwritten hnone, hstarted, hdecoder]
  simp

end Connection

namespace Desk

open Happening

variable {token timeout : ℕ} {n : FailureCounts} {allowed : Counter → Prop} {d d₁ d' : Desk}

theorem Touches.owns (h : Touches d n d₁) (hopen : d.connection.done = false)
    (howns : d.connection.OwnsIfUntouched) : d₁.connection.OwnsIfUntouched := by
  induction h with
  | refl => exact howns
  | exchange h hx hw ih => exact hx.owns (h.done_eq.trans hopen) ih
  | @read d₁ n m c w h hr hw ih =>
    have hread := hr.owns (h.done_eq.trans hopen) ih
    intro huntouched
    exact (hread huntouched).of_same (fun _ _ h => h) rfl rfl rfl id fun h => ⟨h, rfl⟩

theorem findsNothing_attempts {c : Connection} (h : c.FindsNothing) (tried made limited : ℕ) :
    (attempts tried made limited c).FindsNothing := by
  intro left time hleft
  cases List.mem_append.mp hleft with
  | inl hmem => cases List.eq_of_mem_replicate hmem
  | inr hmem => exact h left time hmem

/-- A connection comes back with nothing of its old transport. -/
theorem ComesBack.owns {assign : Connection → Connection} {k : ℕ} {w w' : World}
    {c c' : Connection} (h : ComesBack assign k w c c' w')
    (hassign : assign = toRetry ∨ assign = toRecover) (howns : c.OwnsIfUntouched) :
    c'.OwnsIfUntouched := by
  obtain ⟨tried, made, limited, -, addressIndex, now, -, -, rfl⟩ := h.reopens
  intro huntouched
  cases hassign with
  | inl h =>
    subst h
    have hreopens : (!c.hasStarted && isQuiet (List.replicate tried .attempted ++ c.history) &&
        reopensUntouched (List.replicate tried .attempted ++ c.history)) = true := huntouched
    rw [isQuiet_attempted, reopensUntouched_attempted, Bool.and_eq_true, Bool.and_eq_true,
      Bool.not_eq_true'] at hreopens
    obtain ⟨⟨hstarted, hquiet⟩, huntouched⟩ := hreopens
    have hbefore := howns huntouched
    apply owns_opened
    · intro left time hleft
      cases hleft with
      | tail _ hleft =>
        exact findsNothing_attempts hbefore.findsNothing tried made limited left time hleft
    · exact hbefore.leftover_eq hstarted hquiet
  | inr h =>
    subst h
    have hreopens : reopensUntouched (List.replicate tried .attempted ++ c.history) = true :=
      huntouched
    rw [reopensUntouched_attempted] at hreopens
    have hbefore := howns hreopens
    apply owns_opened
    · intro left time hleft
      cases hleft with
      | tail _ hleft =>
        exact findsNothing_attempts hbefore.findsNothing tried made limited left time hleft
    · simp [leftover, toRecover, leavePace, restart, hasStarted]

theorem Settles.owns (h : Settles token timeout allowed d d') (hopen : d.connection.done = false)
    (howns : d.connection.OwnsIfUntouched) : d'.connection.OwnsIfUntouched := by
  cases h with
  | cameBack h hallowed hf hassign hback hw =>
    have hback' := ComesBack.owns hback hassign (h.owns hopen howns)
    intro huntouched
    exact (hback' huntouched).of_same (fun _ _ h => h) rfl rfl rfl id fun h => ⟨h, rfl⟩
  | @gaveUp d₁ c w k counter f h hallowed hf hup hw =>
    obtain ⟨-, rfl, -⟩ := hup
    intro huntouched
    have hreopens :
        reopensUntouched (List.replicate k .attempted ++ d₁.connection.history) = true :=
      huntouched
    rw [reopensUntouched_attempted] at hreopens
    refine (h.owns hopen howns hreopens).of_same (fun left time hleft => ?_) ?_ rfl rfl nofun
      fun h => ⟨h, rfl⟩
    · cases List.mem_append.mp hleft with
      | inl hmem => cases List.eq_of_mem_replicate hmem
      | inr hmem => exact hmem
    · exact ownBytes_attempted k d₁.connection.history
  | ranOut h hallowed hf hlimit hw =>
    intro huntouched
    exact (h.owns hopen howns huntouched).of_same (fun _ _ h => h) rfl rfl rfl nofun
      fun h => ⟨h, rfl⟩
  | stopped h hstop hw =>
    obtain ⟨interest, rfl⟩ := hstop.connection_eq
    intro huntouched
    exact (h.owns hopen howns huntouched).of_same (fun _ _ h => h) rfl rfl rfl nofun
      fun h => ⟨h, rfl⟩

/-- The connection whose response is complete. -/
theorem Answers.owns {t : ℕ} {c c' : Connection} {response : CompletedResponse}
    (h : Answers t c c' response) (hopen : c.done = false) (howns : c.OwnsIfUntouched) :
    (finish (complete c')).OwnsIfUntouched := by
  cases h with
  | @mk c' hreads data eof hdata parsed hdecoded =>
    intro huntouched
    have hreopens : reopensUntouched (c'.hear data eof).history = true := huntouched
    rw [reopensUntouched_hear] at hreopens
    have hread := hreads.owns hopen howns hreopens
    have hopen' : c'.done = false := (congrArg (·.done) hreads.kept).trans hopen
    refine ⟨fun left time hleft => ?_, ?_, nofun, fun hnone => ?_⟩
    · cases hleft with
      | tail _ hleft => exact hread.findsNothing.hear data eof left time hleft
    · have hdecoder := hread.hear_decoder hopen' data eof
      rw [← ownBytes_hear data eof] at hdecoder
      have hsame : c'.decoding (ownBytes (c'.hear data eof).history) =
          (c'.hear data eof).decoding (ownBytes (c'.hear data eof).history) := by
        rw [decoding, decoding, hear_method]
      rw [hsame] at hdecoder
      exact hdecoder
    · have hnone : c'.started = none := (hear_started data eof c').symm.trans hnone
      have hoffset : (c'.hear data eof).writeOffset = c'.writeOffset :=
        congrArg (·.writeOffset) (readFrame_hear data eof c')
      exact hoffset.trans (hread.unwritten hnone)

/-- The next request finds a new decoder, on a new transport or on the one there is. -/
theorem GoesOn.owns {drawn : Drawn} {w w' : World} {c c' : Connection}
    (h : GoesOn drawn w c c' w') (hopen : c.done = false)
    (hfinds : reopensUntouched c.history = true → c.FindsNothing) : c'.OwnsIfUntouched := by
  have hturned : reopensUntouched c.history = true → (turned drawn c).FindsNothing := by
    intro huntouched left time hleft
    cases hleft with
    | tail _ hleft =>
      cases hleft with
      | tail _ hleft =>
        cases hleft with
        | tail _ hleft => exact hfinds huntouched left time hleft
  cases h with
  | reopened h =>
    obtain ⟨addressIndex, now, -, -, rfl⟩ := h
    intro huntouched
    apply owns_opened (hturned huntouched)
    simp [leftover, turned, unstart, install, rewind, hasStarted]
  | reused h =>
    apply h.owns hopen
    intro huntouched
    exact ⟨hturned huntouched, rfl, fun _ => rfl, fun _ => rfl⟩

theorem Turn.owns (h : Turn token timeout d d') (hopen : d.connection.done = false)
    (howns : d.connection.OwnsIfUntouched) : d'.connection.OwnsIfUntouched := by
  cases h with
  | rested h => exact h.owns hopen howns
  | begun h => exact h.owns hopen howns
  | deferred h =>
    intro huntouched
    exact (h.owns hopen howns huntouched).of_same (fun _ _ h => h) rfl rfl rfl id fun h => ⟨h, rfl⟩
  | settled h => exact h.owns hopen howns
  | answeredLast hanswer =>
    have hanswered := Answers.owns hanswer hopen howns
    intro huntouched
    exact (hanswered huntouched).of_same (fun _ _ h => h) rfl rfl rfl id fun h => ⟨h, rfl⟩
  | @answeredNext c₁ c w₁ w response uri drawn hanswer hw₁ huri hw hon hmore =>
    have hanswered := Answers.owns hanswer hopen howns
    have hopen₁ : c₁.done = false := (congrArg (·.done) hanswer.kept).trans hopen
    apply GoesOn.owns hon hopen₁
    intro huntouched left time hleft
    exact (hanswered huntouched).findsNothing left time (List.mem_cons_of_mem _ hleft)
  | resumed hre hopened hw =>
    obtain ⟨addressIndex, now, -, -, rfl⟩ := hopened
    intro huntouched
    have hreopens : (!d.connection.hasStarted && isQuiet d.connection.history &&
        reopensUntouched d.connection.history) = true := huntouched
    rw [Bool.and_eq_true, Bool.and_eq_true, Bool.not_eq_true'] at hreopens
    obtain ⟨⟨hstarted, hquiet⟩, hbefore⟩ := hreopens
    apply owns_opened
    · intro left time hleft
      cases hleft with
      | tail _ hleft => exact (howns hbefore).findsNothing left time hleft
    · exact (howns hbefore).leftover_eq hstarted hquiet

end Desk

theorem turnInvariant_owns : TurnInvariant OwnsIfUntouched where
  turn h hopen howns := h.owns hopen howns
  settles h hopen howns := h.owns hopen howns
  connected addresses limit tls drawn addressIndex t := by
    intro _
    refine ⟨fun left time hleft => ?_, rfl, fun _ => rfl, fun _ => rfl⟩
    cases hleft with
    | tail _ hleft =>
      cases hleft with
      | head => rfl
      | tail _ hleft => cases hleft

namespace RunInput

variable (input : RunInput)

/-- Where every connection that keeps its request and its decoder for a new transport has not
started the one and not touched the other, a new transport finds nothing of another, and the
decoder knows nothing but the bytes of its own. -/
theorem transports_replaced (schedule : List ℕ) :
    ∀ w ∈ (input.after schedule).components, ∀ c ∈ w.connections,
      Happening.reopensUntouched c.history = true →
        c.FindsNothing ∧ c.decoder = (c.decoding (Happening.ownBytes c.history)).2 := by
  intro w hw c hc huntouched
  have howns := input.forall_turned turnInvariant_owns schedule w hw c hc huntouched
  exact ⟨howns.findsNothing, howns.decoder_eq⟩

/-- The connection that the server closes is opened again at the pace of its second request. -/
theorem transports_replaced_sample :
    (closingRun.after (List.replicate 18 0)).components.length = 1 ∧
      ∀ w ∈ (closingRun.after (List.replicate 18 0)).components, w.connections.length = 1 ∧
        ∀ c ∈ w.connections, Happening.reconnectedAtPace false ∈ c.history ∧
          c.FindsNothing ∧ c.decoder = (c.decoding (Happening.ownBytes c.history)).2 := by
  have huntouched : (closingRun.after (List.replicate 18 0)).components.length = 1 ∧
      ∀ w ∈ (closingRun.after (List.replicate 18 0)).components, w.connections.length = 1 ∧
        ∀ c ∈ w.connections, Happening.reconnectedAtPace false ∈ c.history ∧
          Happening.reopensUntouched c.history = true := by
    decide +kernel
  refine ⟨huntouched.1, fun w hw => ⟨(huntouched.2 w hw).1, fun c hc => ?_⟩⟩
  obtain ⟨hreopened, hkept⟩ := (huntouched.2 w hw).2 c hc
  exact ⟨hreopened, transports_replaced closingRun _ w hw c hc hkept⟩

/-- One request in a second, and a server that sends a part of a response before the second one
and closes its connection. -/
def earlyDataRun : RunInput :=
  plain (.requests 2) 1 ((RequestSequence.inOrder [getRoot]).withRate (some 1) 0) none
    fun call =>
      if call < 20 then promptReply
      else if call < 30 then {
        reads := [.ok (emptyResponse.take 8), .ok []]
        events := [{ token := 0, isReadable := true }] }
      else {}

/-- The transport that is opened at the pace of the second request finds a decoder that knows
bytes of the closed one. -/
theorem transports_soiled :
    ¬ ∀ (input : RunInput) (schedule : List ℕ), input.prepared.config.validate = .ok () →
      ∀ w ∈ (input.after schedule).components, ∀ c ∈ w.connections,
        c.FindsNothing ∧ c.decoder = (c.decoding (Happening.ownBytes c.history)).2 := by
  intro h
  have hsoiled : ∃ w ∈ (earlyDataRun.after (List.replicate 18 0)).components, ∃ c ∈ w.connections,
      Happening.opened ⟨0, false, false⟩ (10 ^ 9) ∈ c.history := by
    decide +kernel
  obtain ⟨w, hw, c, hc, hopened⟩ := hsoiled
  have hfound := (h earlyDataRun (List.replicate 18 0) rfl w hw c hc).1 _ _ hopened
  cases hfound

end RunInput

end Rload
