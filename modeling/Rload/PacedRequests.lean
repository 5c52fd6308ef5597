import Rload.DrawLedger
import Rload.EarlyResponses
import Mathlib.Algebra.Order.BigOperators.Group.List
import Mathlib.Algebra.Order.Group.Multiset
import Mathlib.Algebra.Order.Group.Nat

/-!
# The pace of the requests

The slots of a fixed rate are an interval apart, whoever draws them. A connection writes no byte
of a request before its slot, so that at any time no more requests have begun than slots are due.
-/

namespace Rload
open StatefulPrograms

/-- Times that are an interval apart, the latest first, of which none is before `start`. -/
structure Spaced (interval start : ℕ) (times : List ℕ) : Prop where
  apart : times.Pairwise fun later earlier => earlier + interval ≤ later
  start_le : ∀ time ∈ times, start ≤ time

namespace Spaced

variable {interval start : ℕ} {times : List ℕ}

theorem latest_le (h : Spaced interval start times) {latest : ℕ}
    (hlatest : times.head? = some latest) :
    start + (times.length - 1) * interval ≤ latest := by
  induction times generalizing latest with
  | nil => cases hlatest
  | cons time times ih =>
    cases hlatest
    obtain ⟨hapart, hrest⟩ := List.pairwise_cons.mp h.apart
    obtain ⟨hfirst, hstarts⟩ := List.forall_mem_cons.mp h.start_le
    cases times with
    | nil => simpa using hfirst
    | cons next times =>
      have hnext := ih ⟨hrest, hstarts⟩ rfl
      have hle := hapart next List.mem_cons_self
      simp only [List.length_cons, Nat.add_sub_cancel] at hnext ⊢
      rw [Nat.succ_mul]
      omega

/-- How many of the times are not after `t`. -/
theorem countP_le (h : Spaced interval start times) (hinterval : 0 < interval) (t : ℕ) :
    times.countP (· ≤ t) ≤ 1 + (t - start) / interval := by
  rw [List.countP_eq_length_filter]
  have hspaced : Spaced interval start (times.filter (· ≤ t)) :=
    ⟨h.apart.filter _, fun time htime => h.start_le time (List.mem_of_mem_filter htime)⟩
  cases hdue : times.filter (· ≤ t) with
  | nil => exact Nat.zero_le _
  | cons latest due =>
    rw [hdue] at hspaced
    have hle : latest ≤ t := by
      have hmem : latest ∈ times.filter (· ≤ t) := hdue ▸ List.mem_cons_self
      exact of_decide_eq_true (List.mem_filter.mp hmem).2
    have hlatest := hspaced.latest_le rfl
    rw [List.length_cons, Nat.add_sub_cancel] at hlatest
    rw [List.length_cons, add_comm]
    apply Nat.add_le_add_left
    rw [Nat.le_div_iff_mul_le hinterval]
    omega

end Spaced

namespace Drawn

/-- The slot of the request is not after `t`. -/
def isDue (t : ℕ) (drawn : Drawn) : Bool := drawn.notBefore.all (· ≤ t)

theorem isDue_mono {t t' : ℕ} (h : t ≤ t') {drawn : Drawn} (hdue : drawn.isDue t) :
    drawn.isDue t' := by
  unfold isDue at hdue ⊢
  cases hslot : drawn.notBefore with
  | none => rfl
  | some slot =>
    rw [hslot, Option.all_some, decide_eq_true_eq] at hdue
    rw [Option.all_some, decide_eq_true_eq]
    exact hdue.trans h

end Drawn

namespace RequestSequence

variable {s s' : RequestSequence} {issued : List Drawn}

/-- The choice of an entry leaves the pacers alone. -/
theorem select_pacers {index : ℕ} (h : s.select = .ok (index, s')) :
    s'.pacer = s.pacer ∧ s'.timestampPacer = s.timestampPacer ∧ s'.stagePacer = s.stagePacer := by
  unfold select at h
  split at h
  · cases h
  · split at h
    · cases h
      exact ⟨rfl, rfl, rfl⟩
    · split at h
      · cases h
        exact ⟨rfl, rfl, rfl⟩
      · obtain ⟨_, -, h⟩ := ok_of_bind h
        cases h
        exact ⟨rfl, rfl, rfl⟩
      · obtain ⟨_, -, h⟩ := ok_of_bind h
        cases h
        exact ⟨rfl, rfl, rfl⟩

theorem next_pacer {now : ℕ} {drawn : Drawn} (h : s.next now = .ok (drawn, s')) {pacer : Pacer}
    (hpacer : s.pacer = some pacer) :
    drawn.notBefore = some (pacer.reserve now).1 ∧ s'.pacer = some (pacer.reserve now).2 := by
  obtain ⟨⟨index, s₁⟩, hselect, h⟩ := ok_of_bind h
  obtain ⟨entry, -, h⟩ := ok_of_bind h
  obtain ⟨⟨scheduled, s₂⟩, hreserve, h⟩ := ok_of_bind h
  obtain ⟨method, -, h⟩ := ok_of_bind h
  cases h
  have hpacer₁ : s₁.pacer = some pacer := (select_pacers hselect).1.trans hpacer
  simp only [reserve, hpacer₁] at hreserve
  obtain ⟨result, hresult, hreserve⟩ := ok_of_bind hreserve
  have hreserved := Pacer.reserve_of_reserveIn (some_of_orHalt hresult)
  cases hreserve
  exact ⟨congrArg (some ·.1) hreserved, congrArg (some ·.2) hreserved⟩

/-- The draws at a fixed rate have slots, and the next one comes an interval after them. -/
structure Slots (interval start : ℕ) (times : List ℕ) (issued : List Drawn)
    (s : RequestSequence) : Prop where
  slots_eq : issued.map (·.notBefore) = times.map some
  spaced : Spaced interval start times
  pacer_eq : ∃ next, s.pacer = some ⟨interval, next⟩ ∧ start ≤ next ∧
    ∀ time ∈ times, time + interval ≤ next

variable {interval start : ℕ} {times : List ℕ}

theorem Slots.draw (h : Slots interval start times issued s) {now : ℕ} {drawn : Drawn}
    (hnext : s.next now = .ok (drawn, s')) :
    ∃ time, Slots interval start (time :: times) (drawn :: issued) s' := by
  obtain ⟨next, hpacer, hstart, hbefore⟩ := h.pacer_eq
  obtain ⟨hslot, hafter⟩ := next_pacer hnext hpacer
  have hle : next ≤ max next now := le_max_left _ _
  refine ⟨max next now, ?_, ⟨?_, ?_⟩, _, hafter, ?_, ?_⟩
  · rw [List.map_cons, List.map_cons, hslot, h.slots_eq]
    rfl
  · exact h.spaced.apart.cons fun time htime => (hbefore time htime).trans hle
  · exact List.forall_mem_cons.mpr ⟨hstart.trans hle, h.spaced.start_le⟩
  · exact (hstart.trans hle).trans (Nat.le_add_right _ _)
  · refine List.forall_mem_cons.mpr ⟨le_rfl, fun time htime => ?_⟩
    exact (hbefore time htime).trans (hle.trans (Nat.le_add_right _ _))

theorem Issues.slots (h : s.Issues issued s') (hpacer : s.pacer = some ⟨interval, start⟩) :
    ∃ times, Slots interval start times issued s' := by
  induction h with
  | refl =>
    exact ⟨[], rfl, ⟨.nil, List.forall_mem_nil _⟩, start, hpacer, le_rfl, List.forall_mem_nil _⟩
  | draw _ hnext ih =>
    obtain ⟨times, hslots⟩ := ih
    obtain ⟨time, hslots⟩ := hslots.draw hnext
    exact ⟨time :: times, hslots⟩

theorem Slots.countP_le (h : Slots interval start times issued s) (hinterval : 0 < interval)
    (t : ℕ) : issued.countP (·.isDue t) ≤ 1 + (t - start) / interval := by
  have hcount := congrArg (List.countP fun slot : Option ℕ => slot.all (· ≤ t)) h.slots_eq
  rw [List.countP_map, List.countP_map] at hcount
  exact hcount.trans_le (h.spaced.countP_le hinterval t)

end RequestSequence

namespace Happening

/-- A byte of the request was written, not after `t`. -/
def wroteBy (t : ℕ) : Happening → Bool
  | .wrote bytes time => bytes ≠ [] && time ≤ t
  | _ => false

end Happening

namespace Connection

/-- What happened since each draw, the current request first; what was before the first draw
comes last. -/
def requestHistories (c : Connection) : List (List Happening) := c.history.splitOnP Happening.isDraw

/-- How many requests of the connection had a byte written by the time `t`. -/
def begunBy (t : ℕ) (c : Connection) : ℕ :=
  c.requestHistories.countP (·.any (Happening.wroteBy t))

variable {t : ℕ} {c c' : Connection}

theorem splitOnP_append {events : List Happening} (h : ∀ event ∈ events, event.isDraw = false)
    (history : List Happening) :
    (events ++ history).splitOnP Happening.isDraw =
      (history.splitOnP Happening.isDraw).modifyHead (events ++ ·) := by
  induction events with
  | nil => exact (congrFun List.modifyHead_id _).symm
  | cons event events ih =>
    obtain ⟨hevent, hevents⟩ := List.forall_mem_cons.mp h
    rw [List.cons_append, List.splitOnP_cons_eq_if_modifyHead, hevent, ih hevents,
      List.modifyHead_modifyHead]
    rfl

/-- A move that is no draw adds events to the history; where it writes, the request is started
and the time is that of the move. -/
theorem Move.history_eq (h : Move t c c') (hquiet : c'.draws = c.draws) :
    ∃ events, c'.history = events ++ c.history ∧ ∀ event ∈ events, event.isDraw = false ∧
      ∀ bytes time, event = .wrote bytes time → time = t ∧ c.started.isSome := by
  cases h with
  | hear data eof =>
    rw [hear_history]
    split
    · exact ⟨[], rfl, List.forall_mem_nil _⟩
    · exact ⟨[_], rfl, List.forall_mem_singleton.mpr ⟨rfl, by simp⟩⟩
  | awaitPace =>
    refine ⟨[], ?_, List.forall_mem_nil _⟩
    rw [Connection.awaitPace]
    split <;> rfl
  | begin =>
    rw [Connection.begin]
    split
    · exact ⟨[_], rfl, List.forall_mem_singleton.mpr ⟨rfl, by simp⟩⟩
    · exact ⟨[], rfl, List.forall_mem_nil _⟩
  | advance hstarted hpos hle =>
    refine ⟨[_], rfl, List.forall_mem_singleton.mpr ⟨rfl, ?_⟩⟩
    rintro bytes time ⟨⟩
    exact ⟨rfl, hstarted⟩
  | @attempts tried made limited hspends =>
    refine ⟨List.replicate tried .attempted, rfl, fun event hevent => ?_⟩
    rw [List.eq_of_mem_replicate hevent]
    exact ⟨rfl, by simp⟩
  | opened hassign =>
    cases hassign with
    | next => exact ⟨[_], rfl, List.forall_mem_singleton.mpr ⟨rfl, by simp⟩⟩
    | retry => exact ⟨[_, _], rfl, by simp [Happening.isDraw]⟩
    | recover => exact ⟨[_, _], rfl, by simp [Happening.isDraw]⟩
    | resume => exact ⟨[_, _], rfl, by simp [Happening.isDraw]⟩
  | @answer data eof parsed hdata hdecoded =>
    have hheard := hear_history data eof c
    split at hheard
    · exact ⟨[_], congrArg _ hheard, by simp [Happening.isDraw]⟩
    · exact ⟨[_, _], congrArg _ hheard, by simp [Happening.isDraw]⟩
  | next drawn =>
    rw [draws_next] at hquiet
    omega
  | _ => exact ⟨[], rfl, List.forall_mem_nil _⟩

/-- A request that is started was so before, or its slot has come. -/
theorem Move.isDue (h : Move t c c') (hquiet : c'.draws = c.draws) (hstarted : c'.started.isSome) :
    c.started.isSome ∨ c.drawn.isDue t := by
  cases h with
  | hear data eof =>
    left
    rw [Connection.hear] at hstarted
    split at hstarted
    · exact hstarted
    · exact hstarted
  | awaitPace =>
    left
    rw [Connection.awaitPace] at hstarted
    split at hstarted
    · exact hstarted
    · exact hstarted
  | begin hpace =>
    right
    unfold Drawn.isDue
    rw [Option.all_eq_true_iff_get]
    intro hslot
    exact decide_eq_true (hpace _ (Option.some_get hslot).symm)
  | opened hassign =>
    cases hassign with
    | next => exact Or.inl hstarted
    | retry => exact Or.inl hstarted
    | recover => cases hstarted
    | resume => exact Or.inl hstarted
  | @answer data eof parsed hdata hdecoded =>
    left
    have hstarted : (c.hear data eof).started.isSome := hstarted
    rw [Connection.hear] at hstarted
    split at hstarted
    · exact hstarted
    · exact hstarted
  | next drawn => cases hstarted
  | _ => exact Or.inl hstarted

/-- The requests that the connection has begun were due: the one it works on, and of those
before it no more than were due. -/
structure KeepsPace (u t : ℕ) (book : List Drawn) (c : Connection) : Prop where
  drawn_eq : book.head? = some c.drawn
  gate : c.started.isSome → c.drawn.isDue t
  current : ∀ events ∈ c.requestHistories.head?, events.any (Happening.wroteBy u) → c.drawn.isDue u
  past : c.requestHistories.tail.countP (·.any (Happening.wroteBy u)) ≤
    book.tail.countP (·.isDue u)

variable {u : ℕ} {book : List Drawn}

theorem KeepsPace.begunBy_le (h : KeepsPace u t book c) :
    c.begunBy u ≤ book.countP (·.isDue u) := by
  obtain ⟨events, past, hhistories⟩ :=
    List.exists_cons_of_ne_nil (List.splitOnP_ne_nil Happening.isDraw c.history)
  obtain ⟨drawn, drawns, rfl⟩ : ∃ drawn drawns, book = drawn :: drawns := by
    cases book with
    | nil => cases h.drawn_eq
    | cons drawn drawns => exact ⟨drawn, drawns, rfl⟩
  have hdrawn : drawn = c.drawn := Option.some.inj h.drawn_eq
  have hcurrent := h.current events (by rw [requestHistories, hhistories]; rfl)
  have hpast := h.past
  rw [requestHistories, hhistories] at hpast
  rw [begunBy, requestHistories, hhistories, List.countP_cons, List.countP_cons, hdrawn]
  apply Nat.add_le_add hpast
  split
  · rename_i hbegun
    rw [if_pos (hcurrent hbegun)]
  · exact Nat.zero_le _

theorem keepsPace_invariant (u : ℕ) : LedgerInvariant (KeepsPace u) where
  time t t' book c hle h :=
    ⟨h.drawn_eq, fun hstarted => Drawn.isDue_mono hle (h.gate hstarted), h.current, h.past⟩
  move t book c c' h hmove hquiet := by
    have hdrawn := hmove.drawn_eq hquiet
    obtain ⟨added, hhistory, hadded⟩ := hmove.history_eq hquiet
    have hhistories : c'.requestHistories = c.requestHistories.modifyHead (added ++ ·) := by
      rw [requestHistories, hhistory, splitOnP_append fun event hevent => (hadded event hevent).1]
      rfl
    refine ⟨hdrawn ▸ h.drawn_eq, fun hstarted => ?_, ?_, ?_⟩
    · rw [hdrawn]
      exact (hmove.isDue hquiet hstarted).elim h.gate id
    · rw [hhistories, List.head?_modifyHead, hdrawn]
      intro events hevents hbegun
      obtain ⟨before, hbefore, rfl⟩ := Option.map_eq_some_iff.mp hevents
      rw [List.any_append, Bool.or_eq_true] at hbegun
      refine hbegun.elim (fun hnew => ?_) (h.current before hbefore)
      obtain ⟨event, hevent, hwrote⟩ := List.any_eq_true.mp hnew
      cases event with
      | wrote bytes time =>
        obtain ⟨rfl, hstarted⟩ := (hadded _ hevent).2 bytes time rfl
        have hle : time ≤ u := of_decide_eq_true (Bool.and_eq_true .. ▸ hwrote).2
        exact Drawn.isDue_mono hle (h.gate hstarted)
      | _ => cases hwrote
    · rw [hhistories, List.tail_modifyHead]
      exact h.past
  next t book c drawn h := by
    have hhistories : (unstart (install drawn (rewind c))).requestHistories =
        [] :: c.requestHistories.modifyHead (.replaced c.request c.writeOffset :: ·) := by
      have hhistory : (unstart (install drawn (rewind c))).history =
          .drew drawn.entry :: .replaced c.request c.writeOffset :: c.history := rfl
      rw [requestHistories, hhistory, List.splitOnP_cons_eq_if_modifyHead,
        List.splitOnP_cons_eq_if_modifyHead]
      rfl
    refine ⟨rfl, nofun, ?_, ?_⟩
    · rintro events ⟨⟩ ⟨⟩
    · have hsame : (c.requestHistories.modifyHead (.replaced c.request c.writeOffset :: ·)).countP
          (·.any (Happening.wroteBy u)) = c.begunBy u := by
        rw [begunBy]
        cases c.requestHistories with
        | nil => rfl
        | cons events past => rfl
      rw [hhistories, List.tail_cons, List.tail_cons, hsame]
      exact h.begunBy_le
  connected addresses limit tls drawn addressIndex t := by
    refine ⟨rfl, nofun, ?_, le_rfl⟩
    rintro events ⟨⟩ ⟨⟩

end Connection

namespace LoadRun

/-- How many requests of the run had a byte written by the time `t`. -/
def begunBy (t : ℕ) (r : LoadRun) : ℕ :=
  (r.components.map fun w => (w.connections.map (Connection.begunBy t)).sum).sum

end LoadRun

namespace RunInput

variable {input : RunInput} {r : LoadRun} {issued : List Drawn} {books : List Books}
  {lost : Multiset Drawn}

theorem sum_le_of_forall₂ {α β : Type} {R : α → β → Prop} {f : α → ℕ} {g : β → ℕ}
    (hle : ∀ a b, R a b → g b ≤ f a) {as : List α} {bs : List β} (h : List.Forall₂ R as bs) :
    (bs.map g).sum ≤ (as.map f).sum := by
  induction h with
  | nil => exact le_rfl
  | cons hab _ ih => exact Nat.add_le_add (hle _ _ hab) ih

theorem countP_ofList (p : Drawn → Bool) (book : List Drawn) :
    (book : Multiset Drawn).countP (p ·) = book.countP p := by
  rw [Multiset.coe_countP]
  simp only [Bool.decide_eq_true]

theorem countP_all (p : Drawn → Bool) (books : Books) :
    books.all.countP (p ·) = (books.map (·.countP p)).sum := by
  have hsum := map_list_sum (Multiset.countPAddMonoidHom (p ·)) (books.map Multiset.ofList)
  rw [List.map_map] at hsum
  exact hsum.trans (congrArg List.sum (List.map_congr_left fun book _ => countP_ofList p book))

theorem Ledger.begunBy_le {u : ℕ}
    (h : input.Ledger (Connection.KeepsPace u) r issued books lost) :
    r.begunBy u ≤ issued.countP (·.isDue u) := by
  have hworker : ∀ (workerBooks : Books) (w : Worker),
      w.Keeps (Connection.KeepsPace u) workerBooks →
      (w.connections.map (Connection.begunBy u)).sum ≤ workerBooks.all.countP (·.isDue u) := by
    intro workerBooks w hkeeps
    rw [countP_all]
    exact sum_le_of_forall₂ (fun _ _ hpace => hpace.begunBy_le) hkeeps
  calc r.begunBy u ≤ (books.map fun workerBooks => workerBooks.all.countP (·.isDue u)).sum :=
        sum_le_of_forall₂ hworker h.keeps
    _ = (books.map Books.all).sum.countP (·.isDue u) := by
        have hsum := map_list_sum (Multiset.countPAddMonoidHom fun drawn : Drawn =>
          drawn.isDue u) (books.map Books.all)
        rw [List.map_map] at hsum
        exact hsum.symm
    _ ≤ (issued : Multiset Drawn).countP (·.isDue u) := by
        rw [← h.balance]
        exact Multiset.countP_le_of_le _ (Multiset.le_add_right _ _)
    _ = issued.countP (·.isDue u) := countP_ofList _ issued

/-- In every run with a fixed rate of which the slots are an interval apart, the number of
requests of which a byte was written by some time is at most one more than the number of whole
intervals since the pacer was set up. -/
theorem requests_paced (input : RunInput) {rate start : ℕ}
    (hpacer : input.prepared.sequence.pacer = some (.new rate start))
    (hinterval : 0 < slotInterval rate) (schedule : List ℕ) (t : ℕ) :
    (input.after schedule).begunBy t ≤ 1 + (t - start) / slotInterval rate := by
  obtain ⟨issued, books, lost, hledger⟩ :=
    input.exists_ledger (Connection.keepsPace_invariant t) schedule
  obtain ⟨times, hslots⟩ := hledger.issues.slots hpacer
  exact hledger.begunBy_le.trans (hslots.countP_le hinterval t)

/-- One request in a second, and a server that answers at once. -/
def secondsRun : RunInput :=
  plain (.requests 3) 1 ((RequestSequence.inOrder [getRoot]).withRate (some 1) 0) none
    fun call => if 18 ≤ call && call < 26 then {} else promptReply

theorem requests_paced_sample :
    (secondsRun.after (List.replicate 16 0)).begunBy (10 ^ 9 - 1) = 1 ∧
      (secondsRun.after (List.replicate 16 0)).begunBy (10 ^ 9) = 2 ∧
      (secondsRun.after (List.replicate 16 0)).begunBy (10 ^ 9) ≤
        1 + (10 ^ 9 - 0) / slotInterval 1 := by
  refine ⟨by decide +kernel, by decide +kernel, ?_⟩
  exact requests_paced secondsRun rfl (by decide +kernel) _ _

end RunInput

end Rload
