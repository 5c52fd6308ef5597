import Rload.AnsweredRequests
import Rload.DecodedBytes
import Rload.EarlyResponses

/-!
# The bytes that a run receives

The bytes of a read are counted for the connection first, and then taken from it for the summary,
whatever comes of the response. A body is counted when its response is complete, and is shorter
than what its decoder was fed.
-/

namespace Rload
open StatefulPrograms

namespace Happening

def receivedLength : Happening → ℕ
  | .received bytes _ => bytes.length
  | _ => 0

/-- How many bytes the decoder was fed since it was last a new one. -/
def fedBytes : List Happening → ℕ
  | [] => 0
  | .received bytes _ :: history => fedBytes history + bytes.length
  | .drew _ :: _ | .restarted :: _ => 0
  | _ :: history => fedBytes history

theorem fedBytes_attempted (n : ℕ) (history : List Happening) :
    fedBytes (List.replicate n .attempted ++ history) = fedBytes history := by
  induction n with
  | zero => rfl
  | succ n ih => exact ih

end Happening

namespace Connection
open Happening

/-- The bytes of all reads on the transports of the connection. -/
def receivedBytes (c : Connection) : ℕ := (c.history.map receivedLength).sum

def fedBytes (c : Connection) : ℕ := Happening.fedBytes c.history

/-- The bytes that may still become a body. -/
def openBytes (c : Connection) : ℕ := if c.done then 0 else c.fedBytes

variable {t t' n m : ℕ} {c c' c'' : Connection}

theorem fedBytes_hear (data : List UInt8) (eof : Bool) (c : Connection) :
    (c.hear data eof).fedBytes = c.fedBytes + data.length := by
  rw [fedBytes, hear_history]
  split
  · rename_i hdata
    rw [hdata]
    rfl
  · rfl

/-- The decoder has counted and held no more than it was fed. -/
theorem fed_invariant : Invariant fun _ c => c.decoder.Fed c.fedBytes where
  time _ _ _ _ h := h
  move t c c' h hmove := by
    cases hmove with
    | hear data eof =>
      rw [fedBytes_hear]
      exact (h.feed data eof).1
    | awaitPace =>
      rw [Connection.awaitPace]
      split
      · exact h
      · exact h
    | begin =>
      rw [Connection.begin]
      split
      · exact h
      · exact h
    | @attempts tried made limited hspends =>
      have hsame : (attempts tried made limited c).fedBytes = c.fedBytes :=
        fedBytes_attempted tried c.history
      rw [hsame]
      exact h
    | opened hassign =>
      cases hassign with
      | recover => exact ResponseDecoder.fed_new _
      | _ => exact h
    | @answer data eof =>
      have hsame : (complete (c.hear data eof)).fedBytes = (c.hear data eof).fedBytes := rfl
      rw [hsame, fedBytes_hear]
      exact (h.feed data eof).1
    | next drawn => exact ResponseDecoder.fed_new _
    | _ => exact h
  connected addresses limit tls drawn addressIndex t := ResponseDecoder.fed_new _

/-- A body is shorter than what the decoder was fed with its response. -/
theorem Answers.bodyLength_lt {response : CompletedResponse} (h : Answers t c c' response)
    (hfed : c.decoder.Fed c.fedBytes) : response.bodyLength < c'.fedBytes := by
  cases h with
  | @mk c' hreads data eof hdata parsed hdecoded =>
    have hbefore := (hreads.moves t).keeps fed_invariant.time fed_invariant.move hfed
    rw [fedBytes_hear]
    exact (hbefore.feed data eof).2 parsed hdecoded

/-- So many bytes were read, and nothing else could become a body. -/
structure Hears (n : ℕ) (c c' : Connection) : Prop where
  pending_eq : c'.pendingReadBytes = c.pendingReadBytes + n
  received_eq : c'.receivedBytes = c.receivedBytes + n
  open_le : c'.openBytes ≤ c.openBytes + n

theorem Hears.refl (c : Connection) : Hears 0 c c := ⟨rfl, rfl, le_rfl⟩

theorem Hears.trans (h : Hears n c c') (h' : Hears m c' c'') : Hears (n + m) c c'' where
  pending_eq := by rw [h'.pending_eq, h.pending_eq, Nat.add_assoc]
  received_eq := by rw [h'.received_eq, h.received_eq, Nat.add_assoc]
  open_le := by
    have hfirst := h.open_le
    have hsecond := h'.open_le
    omega

theorem hears_hear (data : List UInt8) (eof : Bool) (c : Connection) :
    Hears data.length c (c.hear data eof) where
  pending_eq := by
    rw [Connection.hear]
    split
    · rename_i hdata
      rw [hdata]
      rfl
    · rfl
  received_eq := by
    rw [receivedBytes, receivedBytes, hear_history]
    split
    · rename_i hdata
      rw [hdata]
      rfl
    · exact Nat.add_comm _ _
  open_le := by
    have hdone : (c.hear data eof).done = c.done := congrArg (·.done) (readFrame_hear data eof c)
    rw [openBytes, openBytes, hdone, fedBytes_hear]
    split
    · exact Nat.zero_le _
    · exact le_rfl

theorem Reads.hears (h : Reads c c') : ∃ n, Hears n c c' := by
  induction h with
  | refl => exact ⟨0, .refl c⟩
  | hear _ hgoes ih =>
    obtain ⟨n, hn⟩ := ih
    exact ⟨n + _, hn.trans (hears_hear _ _ _)⟩

theorem Answers.hears {response : CompletedResponse} (h : Answers t c c' response) :
    ∃ n, Hears n c c' := by
  cases h with
  | mk hreads hdata hdecoded =>
    obtain ⟨n, hn⟩ := hreads.hears
    exact ⟨n + _, hn.trans (hears_hear _ _ _)⟩

theorem Exchange.hears (h : Exchange t t' c c') : Hears 0 c c' := by
  induction h with
  | refl => exact .refl _
  | later _ hle ih => exact ih
  | awaitPace _ hpace hearly ih =>
    rw [Connection.awaitPace]
    split
    · exact ih
    · exact ⟨ih.pending_eq, ih.received_eq, ih.open_le⟩
  | begin _ hpace ih =>
    rw [Connection.begin]
    split
    · exact ⟨ih.pending_eq, (Nat.zero_add _).trans ih.received_eq, ih.open_le⟩
    · exact ⟨ih.pending_eq, ih.received_eq, ih.open_le⟩
  | @advance t' c c' h n hstarted hpos hle ih =>
    have hreceived : (c'.advanceOffset t' n).receivedBytes = c'.receivedBytes := Nat.zero_add _
    exact ⟨ih.pending_eq, hreceived.trans ih.received_eq, ih.open_le⟩
  | watch _ interest ih => exact ⟨ih.pending_eq, ih.received_eq, ih.open_le⟩

theorem hears_attempts (tried made limited : ℕ) (c : Connection) :
    Hears 0 c (attempts tried made limited c) where
  pending_eq := rfl
  received_eq := by
    have hnone : ((List.replicate tried Happening.attempted).map receivedLength).sum = 0 := by
      rw [List.map_replicate, List.sum_replicate]
      exact Nat.mul_zero tried
    rw [receivedBytes, attempts, List.map_append, List.sum_append, hnone, Nat.zero_add]
    rfl
  open_le := by
    have hfed : (attempts tried made limited c).fedBytes = c.fedBytes :=
      fedBytes_attempted tried c.history
    rw [openBytes, hfed]
    exact le_rfl

theorem Assigns.hears {assign : Connection → Connection} (h : Assigns c assign)
    (addressIndex now : ℕ) :
    Hears 0 c (reopened assign addressIndex now c) := by
  have hreceived : ∀ {c' : Connection} {happening : Happening} {left : Leftover},
      c'.history = .opened left now :: happening :: c.history →
        happening.receivedLength = 0 → c'.receivedBytes = c.receivedBytes := by
    intro c' happening left hhistory hnone
    rw [receivedBytes, hhistory, List.map_cons, List.map_cons, List.sum_cons, List.sum_cons, hnone]
    exact (Nat.zero_add _).trans (Nat.zero_add _)
  cases h with
  | next => exact ⟨rfl, Nat.zero_add _, le_rfl⟩
  | retry => exact ⟨rfl, hreceived rfl rfl, le_rfl⟩
  | recover =>
    refine ⟨rfl, hreceived rfl rfl, ?_⟩
    have hnone : (reopened toRecover addressIndex now c).openBytes = 0 := ite_self _
    rw [hnone]
    exact Nat.zero_le _
  | resume => exact ⟨rfl, hreceived rfl rfl, le_rfl⟩

theorem Reopens.hears {assign : Connection → Connection} {w w' : World}
    (h : Reopens assign w c c' w') (hassign : Assigns c assign) : Hears 0 c c' := by
  obtain ⟨addressIndex, now, -, -, rfl⟩ := h
  exact hassign.hears addressIndex now

theorem ComesBack.hears {assign : Connection → Connection} {k : ℕ} {w w' : World}
    (h : ComesBack assign k w c c' w') (hassign : assign = toRetry ∨ assign = toRecover) :
    Hears 0 c c' := by
  obtain ⟨tried, made, limited, -, hopen⟩ := h.reopens
  have hwatch : Hears 0 c (c.watch none) := ⟨rfl, rfl, le_rfl⟩
  have hbegun := hwatch.trans (hears_attempts tried made limited _)
  cases hassign with
  | inl h =>
    subst h
    exact hbegun.trans (hopen.hears .retry)
  | inr h =>
    subst h
    exact hbegun.trans (hopen.hears .recover)

/-- The next request begins with nothing that may become a body. -/
theorem GoesOn.hears {drawn : Drawn} {w w' : World} (h : GoesOn drawn w c c' w') :
    c'.pendingReadBytes = c.pendingReadBytes ∧ c'.receivedBytes = c.receivedBytes ∧
      c'.openBytes = 0 := by
  have hreceived : (turned drawn c).receivedBytes = c.receivedBytes := by
    have hhistory : (turned drawn c).history = .drew drawn.entry ::
        .replaced c.request c.writeOffset :: .answered c.entry c.started.isSome :: c.history := rfl
    rw [receivedBytes, hhistory]
    simp only [List.map_cons, List.sum_cons, receivedLength, Nat.zero_add]
    rfl
  have hturned : ∀ interest, Hears 0 ((turned drawn c).watch interest) c' →
      c'.pendingReadBytes = c.pendingReadBytes ∧ c'.receivedBytes = c.receivedBytes ∧
        c'.openBytes = 0 := by
    intro interest h
    have hnone : ((turned drawn c).watch interest).openBytes = 0 := ite_self _
    exact ⟨h.pending_eq, h.received_eq.trans hreceived,
      Nat.le_zero.mp (h.open_le.trans_eq (congrArg (· + 0) hnone))⟩
  cases h with
  | reopened h => exact hturned _ (h.hears .next)
  | reused h => exact hturned _ h.hears

end Connection

namespace Desk
open Connection

variable {token timeout : ℕ} {n : FailureCounts} {allowed : Counter → Prop} {d d₁ d' : Desk}

/-- Every byte that is received is counted at once, and what is counted for bodies was open. -/
structure Meters (d d' : Desk) : Prop where
  drained : d'.connection.pendingReadBytes = 0
  read_eq : d'.summary.readBytes + d.connection.receivedBytes =
    d.summary.readBytes + d'.connection.receivedBytes
  body_le : d'.summary.responseBodyBytes + d'.connection.openBytes + d.connection.receivedBytes ≤
    d.summary.responseBodyBytes + d.connection.openBytes + d'.connection.receivedBytes

theorem Meters.refl (h : d.connection.pendingReadBytes = 0) : Meters d d := ⟨h, rfl, le_rfl⟩

theorem Meters.trans (h : Meters d d₁) (h' : Meters d₁ d') : Meters d d' where
  drained := h'.drained
  read_eq := by
    have hfirst := h.read_eq
    have hsecond := h'.read_eq
    omega
  body_le := by
    have hfirst := h.body_le
    have hsecond := h'.body_le
    omega

/-- Nothing is read and no response counted. -/
theorem meters_of_hears (hdrained : d.connection.pendingReadBytes = 0)
    (h : Hears 0 d.connection d'.connection) (hread : d'.summary.readBytes = d.summary.readBytes)
    (hbody : d'.summary.responseBodyBytes = d.summary.responseBodyBytes) : Meters d d' where
  drained := h.pending_eq.trans hdrained
  read_eq := by rw [hread, h.received_eq, Nat.add_zero]
  body_le := by
    have hopen := h.open_le
    rw [hbody, h.received_eq]
    omega

theorem Touches.meters (h : Touches d n d₁) (hdrained : d.connection.pendingReadBytes = 0) :
    Meters d d₁ := by
  induction h with
  | refl => exact .refl hdrained
  | exchange _ hx hw ih => exact ih.trans (meters_of_hears ih.drained hx.hears rfl rfl)
  | @read d₁ n m c w _ hr hw ih =>
    obtain ⟨k, hk⟩ := hr.hears
    have hpending : c.pendingReadBytes = k := by rw [hk.pending_eq, ih.drained, Nat.zero_add]
    have hreceived := hk.received_eq
    have hopen := hk.open_le
    apply ih.trans
    refine ⟨rfl, ?_, ?_⟩
    · have hcounted : (d₁.moved c w).countedBytes.summary.readBytes = d₁.summary.readBytes + k :=
        congrArg _ hpending
      have hsame : (d₁.moved c w).countedBytes.connection.receivedBytes = c.receivedBytes := rfl
      rw [hcounted, hsame, hreceived]
      omega
    · have hsame : (d₁.moved c w).countedBytes.connection.receivedBytes = c.receivedBytes := rfl
      have hkept : (d₁.moved c w).countedBytes.connection.openBytes = c.openBytes := rfl
      have hbody : (d₁.moved c w).countedBytes.summary.responseBodyBytes =
        d₁.summary.responseBodyBytes := rfl
      rw [hsame, hkept, hbody, hreceived]
      omega

theorem Settles.meters (h : Settles token timeout allowed d d')
    (hdrained : d.connection.pendingReadBytes = 0) : Meters d d' := by
  cases h with
  | cameBack h hallowed hf hassign hback hw =>
    have hmeters := h.meters hdrained
    have hears := hback.hears hassign
    apply hmeters.trans
    exact meters_of_hears hmeters.drained ⟨hears.pending_eq, hears.received_eq, hears.open_le⟩
      rfl rfl
  | @gaveUp d₁ c w k counter f h hallowed hf hup hw =>
    have hmeters := h.meters hdrained
    obtain ⟨-, rfl, -⟩ := hup
    have hears := hears_attempts k k k (d₁.connection.watch none)
    apply hmeters.trans
    exact meters_of_hears hmeters.drained ⟨hears.pending_eq, hears.received_eq, Nat.zero_le _⟩
      rfl rfl
  | ranOut h hallowed hf hlimit hw =>
    have hmeters := h.meters hdrained
    apply hmeters.trans
    exact meters_of_hears hmeters.drained ⟨rfl, rfl, Nat.zero_le _⟩ rfl rfl
  | stopped h hstop hw =>
    have hmeters := h.meters hdrained
    obtain ⟨interest, rfl⟩ := hstop.connection_eq
    apply hmeters.trans
    exact meters_of_hears hmeters.drained ⟨rfl, rfl, Nat.zero_le _⟩ rfl rfl

/-- The desk after a response is counted and the connection has nothing open. -/
theorem meters_of_answer {t : ℕ} {c₁ : Connection} {response : CompletedResponse}
    (hanswer : Answers t d.connection c₁ response) (hopen : d.connection.done = false)
    (hdrained : d.connection.pendingReadBytes = 0)
    (hfed : d.connection.decoder.Fed d.connection.fedBytes)
    (hread : d'.summary.readBytes = d.summary.readBytes + c₁.pendingReadBytes)
    (hbody : d'.summary.responseBodyBytes = d.summary.responseBodyBytes + response.bodyLength)
    (hafter : d'.connection.pendingReadBytes = 0)
    (hreceived : d'.connection.receivedBytes = c₁.receivedBytes)
    (hnone : d'.connection.openBytes = 0) : Meters d d' := by
  obtain ⟨k, hk⟩ := hanswer.hears
  have hlength := hanswer.bodyLength_lt hfed
  have hdone : c₁.done = false := (congrArg (·.done) hanswer.kept).trans hopen
  have hall : c₁.openBytes = c₁.fedBytes := if_neg (by rw [hdone]; exact Bool.false_ne_true)
  have hpending := hk.pending_eq
  have htotal := hk.received_eq
  have hle := hk.open_le
  constructor
  · exact hafter
  · rw [hread, hreceived]
    omega
  · rw [hbody, hreceived, hnone]
    omega

theorem Turn.meters (h : Turn token timeout d d') (hopen : d.connection.done = false)
    (hdrained : d.connection.pendingReadBytes = 0)
    (hfed : d.connection.decoder.Fed d.connection.fedBytes) : Meters d d' := by
  cases h with
  | rested h => exact h.meters hdrained
  | begun h =>
    have hmeters := h.meters hdrained
    exact hmeters.trans (meters_of_hears hmeters.drained (.refl _) rfl rfl)
  | deferred h hf hstarted hpace hw =>
    have hmeters := h.meters hdrained
    exact hmeters.trans (meters_of_hears hmeters.drained ⟨rfl, rfl, le_rfl⟩ rfl rfl)
  | settled h => exact h.meters hdrained
  | @answeredLast c₁ w₁ w response uri hanswer hw₁ huri hw =>
    have hreceived : (finish (complete c₁.clearReadBytes)).receivedBytes = c₁.receivedBytes :=
      Nat.zero_add _
    exact meters_of_answer hanswer hopen hdrained hfed rfl rfl rfl hreceived rfl
  | @answeredNext c₁ c w₁ w response uri drawn hanswer hw₁ huri hw hon =>
    obtain ⟨hpending, hreceived, hnone⟩ := hon.hears
    exact meters_of_answer hanswer hopen hdrained hfed rfl rfl hpending hreceived hnone
  | resumed hre hopened hw => exact meters_of_hears hdrained (hopened.hears (.resume hre)) rfl rfl

theorem Turns.meters (h : Turns token timeout d d') (hdrained : d.connection.pendingReadBytes = 0)
    (hfed : d.connection.decoder.Fed d.connection.fedBytes) : Meters d d' := by
  induction h with
  | refl => exact .refl hdrained
  | tail hturns hturn ih =>
    have hfed' := Moves.keeps fed_invariant.time fed_invariant.move (Turns.moves hturns) hfed
    exact ih.trans (hturn.2.meters hturn.1 ih.drained hfed')

end Desk

namespace Worker

/-- The summary has every byte that the connections have received, and the bodies among them. -/
structure Meters (w : Worker) : Prop where
  drained : ∀ c ∈ w.connections, c.pendingReadBytes = 0
  read_eq : w.summary.readBytes = (w.connections.map Connection.receivedBytes).sum
  body_le : w.summary.responseBodyBytes + (w.connections.map Connection.openBytes).sum ≤
    w.summary.readBytes

variable {w w₁ : Worker}

theorem Meters.of_same (h : w.Meters) (hconnections : w₁.connections = w.connections)
    (hread : w₁.summary.readBytes = w.summary.readBytes)
    (hbody : w₁.summary.responseBodyBytes = w.summary.responseBodyBytes) : w₁.Meters where
  drained := hconnections ▸ h.drained
  read_eq := by rw [hread, hconnections, h.read_eq]
  body_le := by
    rw [hread, hbody, hconnections]
    exact h.body_le

theorem Meters.turn {token : ℕ} {c : Connection} {d : Desk} (h : w.Meters)
    (hc : w.connections[token]? = some c) (hd : Desk.Meters (w.desk c) d) :
    (w.withDesk token d).Meters := by
  have hreceived := SharedResource.sum_set Connection.receivedBytes hc d.connection
  have hopen := SharedResource.sum_set Connection.openBytes hc d.connection
  have hread : d.summary.readBytes + c.receivedBytes =
      w.summary.readBytes + d.connection.receivedBytes := hd.read_eq
  have hbody : d.summary.responseBodyBytes + d.connection.openBytes + c.receivedBytes ≤
      w.summary.responseBodyBytes + c.openBytes + d.connection.receivedBytes := hd.body_le
  have hbefore := h.read_eq
  have hle := h.body_le
  have hafter : d.summary.readBytes =
      ((w.connections.set token d.connection).map Connection.receivedBytes).sum := by omega
  constructor
  · intro c' hc'
    cases mem_connections_withDesk hc' with
    | inl hmem => exact h.drained c' hmem
    | inr heq => exact heq ▸ hd.drained
  · exact hafter
  · have hgoal : d.summary.responseBodyBytes +
        ((w.connections.set token d.connection).map Connection.openBytes).sum ≤
          d.summary.readBytes := by omega
    exact hgoal

theorem invariant_meters :
    Invariant fun w => w.Meters ∧ ∀ c ∈ w.connections, c.decoder.Fed c.fedBytes where
  sharing w sequence h := ⟨⟨h.1.drained, h.1.read_eq, h.1.body_le⟩, h.2⟩
  move w w' hrunning h hmove := by
    refine ⟨?_, (invariant_connections Connection.fed_invariant).move w w' hrunning h.2 hmove⟩
    obtain ⟨hmeters, hfed⟩ := h
    have idle : ∀ {Q : Timer → Prop} {w₁ : Worker}, Idles Q w w₁ → w₁.Meters :=
      fun hidles => hmeters.of_same hidles.connections_eq
        (congrArg (·.readBytes) hidles.summary_eq)
        (congrArg (·.responseBodyBytes) hidles.summary_eq)
    cases hmove with
    | halted hhalts =>
      exact hmeters.of_same hhalts.connections_eq (congrArg (·.readBytes) hhalts.summary_eq)
        (congrArg (·.responseBodyBytes) hhalts.summary_eq)
    | @connected limit limits attempts drawn addressIndex now world hphase hw hfrom hto =>
      constructor
      · intro c hc
        cases List.mem_append.mp hc with
        | inl hmem => exact hmeters.drained c hmem
        | inr hnew =>
          rw [List.mem_singleton] at hnew
          rw [hnew]
          rfl
      · rw [List.map_append, List.sum_append]
        exact hmeters.read_eq
      · rw [List.map_append, List.sum_append]
        exact hmeters.body_le
    | idled hidles => exact idle hidles
    | handled hidles hc hturns =>
      have hmem := List.mem_of_getElem? hc
      have hdrained := (idle hidles).drained _ hmem
      rw [hidles.connections_eq] at hmem
      exact (idle hidles).turn hc (hturns.meters hdrained (hfed _ hmem))
    | expired hidles hphase ht hdue htoken hgeneration hc hdone hsettles =>
      have hdrained := (idle hidles).drained _ (List.mem_of_getElem? hc)
      exact (idle hidles).turn hc (hsettles.meters hdrained)
    | _ => exact hmeters.of_same rfl rfl rfl

end Worker

/-- The bytes of all reads on all transports of the run. -/
def LoadRun.receivedBytes (r : LoadRun) : ℕ :=
  (r.components.map fun w => (w.connections.map Connection.receivedBytes).sum).sum

namespace RunInput

variable (input : RunInput)

theorem additive_readBytes : RunSummary.Additive RunSummary.readBytes where
  empty := rfl
  merge _ _ := rfl
  complete _ _ := rfl

theorem additive_responseBodyBytes : RunSummary.Additive RunSummary.responseBodyBytes where
  empty := rfl
  merge _ _ := rfl
  complete _ _ := rfl

/-- A run that returns has counted the bytes of every read, at least as many as it has counted
for bodies; each response that was counted has a body shorter than what its decoder was fed. -/
theorem bytes_accounted (schedule : List ℕ) {summary : RunSummary}
    (h : (input.after schedule).outcome input.prepared = some (.ok summary)) :
    summary.readBytes = (input.after schedule).receivedBytes ∧
      summary.responseBodyBytes ≤ summary.readBytes ∧
      ∀ a ∈ input.answers schedule, a.response.bodyLength < a.after.fedBytes := by
  have hmeters := input.forall_worker Worker.invariant_meters (fun limits _ worker =>
    ⟨⟨List.forall_mem_nil _, rfl, le_rfl⟩, List.forall_mem_nil _⟩) schedule
  have hread := (input.outcome_sum additive_readBytes schedule h).1
  have hbody := (input.outcome_sum additive_responseBodyBytes schedule h).1
  refine ⟨?_, ?_, fun a ha => ?_⟩
  · rw [hread]
    exact congrArg List.sum (List.map_congr_left fun w hw => (hmeters w hw).1.read_eq)
  · rw [hread, hbody]
    apply List.sum_le_sum
    intro w hw
    exact (Nat.le_add_right _ _).trans (hmeters w hw).1.body_le
  · obtain ⟨before, i, w, -, hw, hanswer⟩ := input.exists_answer ha
    obtain ⟨token, c, d₁, hc, hreads⟩ := Worker.reads_of_answer hanswer
    have hfed := input.forall_answer Connection.fed_invariant a ha
    rw [← hreads.connection_eq] at hfed
    exact hreads.answers.bodyLength_lt hfed

theorem bytes_accounted_sample :
    ∃ summary, (promptRun.after (List.replicate 14 0)).outcome promptRun.prepared =
        some (.ok summary) ∧ summary.readBytes = 76 ∧ summary.responseBodyBytes ≤ 76 := by
  have hreceived : (promptRun.after (List.replicate 14 0)).receivedBytes = 76 := by decide +kernel
  obtain ⟨summary, h⟩ := LoadRun.exists_of_returns promptRun_returns
  obtain ⟨hread, hbody, -⟩ := bytes_accounted promptRun _ h
  rw [hreceived] at hread
  exact ⟨summary, h, hread, hread ▸ hbody⟩

end RunInput

end Rload
