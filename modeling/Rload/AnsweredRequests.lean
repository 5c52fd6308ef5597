import Rload.DrawLedger
import Rload.RecordedResponses

/-!
# The requests that are answered

A response is recorded after turns of a connection that is not done, by a reading that completes
it. Whatever is so of every connection after its turns is so of the connection of a response.
-/

namespace Rload
open StatefulPrograms Connection

namespace Desk

variable {token timeout : ℕ} {d d₁ : Desk} {a : Answer}

/-- The desk at which a response is read. -/
structure Reads (token timeout : ℕ) (d : Desk) (a : Answer) (d₁ : Desk) : Prop where
  turns : Turns token timeout d d₁
  connection_eq : d₁.connection = a.connection
  done_eq : d₁.connection.done = false
  clock_le : d₁.world.clock ≤ a.time
  answers : Answers a.time d₁.connection a.after a.response
  uri_eq : recordedUri a.response = some a.uri

/-- A branch before the reading ends by a turn, or there is none. -/
theorem branch_turns {branch : DeskM Bool} {rest : DeskM Bool} {b : Bool}
    (hbranch : Passes token timeout d₁ branch d₁) (hd : Turns token timeout d d₁)
    (hdone : d₁.connection.done = false) {Q : Bool → Desk → Prop} (hfalse : ∀ d, Q false d)
    (hrest : ∀ d₂, Turns token timeout d d₂ → d₂.connection.done = false →
      Ensures rest d₂ Q fun _ _ => True) :
    Ensures (do if ← if b then branch else pure false then pure false else rest) d₁ Q
      fun _ _ => True := by
  simp only [ensures_bind, ensures_ite, ensures_pure]
  refine ⟨fun _ => ?_, fun _ => ?_⟩
  · apply Ensures.mono hbranch
    · rintro dealt d₂ ⟨hturn, hopen⟩
      refine ⟨fun _ => hfalse d₂, fun hdealt => hrest d₂ ?_ ?_⟩
      · exact Relation.ReflTransGen.tail hd ⟨hdone, hturn⟩
      · rw [hopen (Bool.not_eq_true _ ▸ hdealt), hdone]
    · exact fun _ _ _ => ⟨⟩
  · exact ⟨fun h => absurd h Bool.false_ne_true, fun _ => hrest d₁ hd hdone⟩

theorem beforeReading_turns (event : Event) :
    Ensures (beforeReading token timeout event) d
      (fun read d₁ => read = true → Turns token timeout d d₁ ∧ d₁.connection.done = false)
      fun _ _ => True := by
  unfold beforeReading
  rw [ensures_bind, ensures_getConnection, ensures_ite]
  refine ⟨fun _ => nofun, fun hdone => ?_⟩
  have hfalse : ∀ d₁ : Desk, false = true →
      Turns token timeout d d₁ ∧ d₁.connection.done = false := fun _ => nofun
  apply branch_turns handleError_passes .refl (Bool.not_eq_true _ ▸ hdone) hfalse
  intro d₁ hd₁ hdone₁
  apply branch_turns handleWritable_passes hd₁ hdone₁ hfalse
  intro d₂ hd₂ hdone₂
  exact fun _ => ⟨hd₂, hdone₂⟩

theorem reads_of_answer {event : Event} (h : d.answer token timeout event = some a) :
    ∃ d₁, Reads token timeout d a d₁ := by
  unfold answer at h
  cases hbefore : beforeReading token timeout event d with
  | error e d₁ =>
    rw [hbefore] at h
    cases h
  | ok read d₁ =>
    rw [hbefore] at h
    cases read with
    | false => cases h
    | true =>
      obtain ⟨hturns, hdone⟩ := (beforeReading_turns event).of_ok hbefore rfl
      simp only [readAnswer] at h
      split at h
      · rename_i response s hread
        obtain ⟨uri, huri, rfl⟩ := Option.map_eq_some_iff.mp h
        obtain ⟨hlater, hanswers⟩ := (readResponse_spec d₁.session).of_ok hread
        exact ⟨d₁, hturns, rfl, hdone, hlater.clock_le, hanswers, huri⟩
      · cases h

end Desk

namespace Worker

/-- The response that a worker records is read from one of its connections. -/
theorem reads_of_answer {w : Worker} {a : Answer} (h : w.answer? = some a) :
    ∃ token c d₁, w.connections[token]? = some c ∧ Desk.Reads token w.timeout (w.desk c) a d₁ := by
  unfold answer? at h
  split at h
  · rename_i event events hphase
    obtain ⟨c, hc, hanswer⟩ := Option.bind_eq_some_iff.mp h
    obtain ⟨d₁, hreads⟩ := Desk.reads_of_answer hanswer
    exact ⟨event.token, c, d₁, hc, hreads⟩
  · cases h

end Worker

namespace RunInput

variable (input : RunInput)

/-- A response of a run was recorded in some turn. -/
theorem exists_answer {schedule : List ℕ} {a : Answer} (ha : a ∈ input.answers schedule) :
    ∃ before i w, before ++ [i] <+: schedule ∧ (input.after before).components[i]? = some w ∧
      (w.sharing (input.after before).shared).answer? = some a := by
  obtain ⟨seen, hseen, ha⟩ := List.mem_flatten.mp ha
  obtain ⟨observed, hobserved, rfl⟩ := List.mem_map.mp hseen
  obtain ⟨before, i, w, hbefore, hw, hlook⟩ :=
    SharedResource.exists_look Worker.shareStep Worker.look hobserved ha
  exact ⟨before, i, w, hbefore, hw, Option.mem_toList.mp hlook⟩

/-- What survives time and the moves of a connection holds of the connection of a response. -/
theorem forall_answer {P : ℕ → Connection → Prop} (hP : Connection.Invariant P)
    {schedule : List ℕ} : ∀ a ∈ input.answers schedule, P a.time a.connection := by
  intro a ha
  obtain ⟨before, i, w, -, hw, hanswer⟩ := input.exists_answer ha
  obtain ⟨token, c, d₁, hc, hreads⟩ := Worker.reads_of_answer hanswer
  have hbefore := input.forall_connection hP before w (List.mem_of_getElem? hw) c
    (List.mem_of_getElem? hc)
  rw [← hreads.connection_eq]
  exact hP.time _ _ _ hreads.clock_le (hreads.turns.moves.keeps hP.time hP.move hbefore)

/-- The request of a response was drawn from the sequence. -/
theorem exists_issued {schedule : List ℕ} {a : Answer} (ha : a ∈ input.answers schedule) :
    ∃ issued sequence, input.prepared.sequence.Issues issued sequence ∧
      a.connection.drawn ∈ issued := by
  obtain ⟨before, i, w, -, hw, hanswer⟩ := input.exists_answer ha
  obtain ⟨token, c, d₁, hc, hreads⟩ := Worker.reads_of_answer hanswer
  obtain ⟨issued, books, lost, hledger⟩ := input.exists_ledger ledger_drawn before
  obtain ⟨book, hbook, hissued⟩ :=
    hledger.mem_issued (List.mem_of_getElem? hw) (List.mem_of_getElem? hc)
  obtain ⟨ds, hissues, hdraws⟩ := hreads.turns.draws
  refine ⟨ds ++ issued, d₁.world.sequence, hledger.issues.trans hissues, ?_⟩
  have hdrawn := List.mem_of_head? (ledger_drawn.draws hdraws hbook)
  rw [← hreads.connection_eq, List.mem_append]
  cases List.mem_append.mp hdrawn with
  | inl hnew => exact Or.inl hnew
  | inr hold => exact Or.inr (hissued _ hold)

end RunInput

end Rload
