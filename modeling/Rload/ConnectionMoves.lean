import Rload.Turns

/-!
# The moves of one connection

A turn, seen from its connection alone, is a chain of single moves at growing times. A
property of a connection that survives time and each single move survives every turn.
-/

namespace Rload
open StatefulPrograms

def Happening.isDraw : Happening → Bool
  | .drew _ => true
  | _ => false

namespace Connection

/-- What a caller assigns when it opens a new transport. -/
inductive Assigns (c : Connection) : (Connection → Connection) → Prop
  | next : Assigns c id
  | retry : Assigns c toRetry
  | recover : Assigns c toRecover
  | resume (h : c.reconnectAtPace) : Assigns c toResume

/-- A single move at the time `t`. -/
inductive Move (t : ℕ) (c : Connection) : Connection → Prop
  | watch (interest : Option Interest) : Move t c (c.watch interest)
  | hear (data : List UInt8) (eof : Bool) : Move t c (c.hear data eof)
  | awaitPace {notBefore : ℕ} (hpace : c.notBefore = some notBefore) (hearly : t < notBefore) :
      Move t c c.awaitPace
  | begin (hpace : ∀ notBefore, c.notBefore = some notBefore → notBefore ≤ t) :
      Move t c (c.begin t)
  | advance {n : ℕ} (hstarted : c.started.isSome) (hpos : 0 < n)
      (hle : c.writeOffset + n ≤ c.request.length) : Move t c (c.advanceOffset t n)
  | attempts {tried made limited : ℕ} (hspends : Spends c tried made limited) :
      Move t c (attempts tried made limited c)
  | clearReadBytes : Move t c c.clearReadBytes
  | clearRecoveryAttempts : Move t c c.clearRecoveryAttempts
  | defer (hstarted : c.started = none) (hpace : c.notBefore.isSome) : Move t c c.defer
  | finish : Move t c c.finish
  | opened {assign : Connection → Connection} (hassign : Assigns c assign) (addressIndex : ℕ) :
      Move t c (withStream ⟨c.tls, none⟩ addressIndex t (assign c))
  | answer {data : List UInt8} {eof : Bool} {parsed : ParsedResponse}
      (hdata : data = [] ∨ eof = false) (hdecoded : c.decoded data eof = .ok (some parsed)) :
      Move t c (complete (c.hear data eof))
  | next (drawn : Drawn) : Move t c (unstart (install drawn (rewind c)))

/-- Moves at growing times. -/
inductive Moves (t : ℕ) (c : Connection) : ℕ → Connection → Prop
  | refl : Moves t c t c
  | later {t' t'' : ℕ} {c' : Connection} (h : Moves t c t' c') (hle : t' ≤ t'') :
      Moves t c t'' c'
  | move {t' : ℕ} {c' c'' : Connection} (h : Moves t c t' c') (hm : Move t' c' c'') :
      Moves t c t' c''

variable {t t' t'' : ℕ} {c c' c'' : Connection}

theorem Moves.trans (h : Moves t c t' c') (h' : Moves t' c' t'' c'') : Moves t c t'' c'' := by
  induction h' with
  | refl => exact h
  | later _ hle ih => exact ih.later hle
  | move _ hm ih => exact ih.move hm

theorem Moves.le (h : Moves t c t' c') : t ≤ t' := by
  induction h with
  | refl => exact le_rfl
  | later _ hle ih => exact ih.trans hle
  | move _ hm ih => exact ih

/-- The invariant rule of a connection. -/
theorem Moves.keeps {P : ℕ → Connection → Prop} (htime : ∀ t t' c, t ≤ t' → P t c → P t' c)
    (hmove : ∀ t c c', P t c → Move t c c' → P t c') (h : Moves t c t' c') (hc : P t c) :
    P t' c' := by
  induction h with
  | refl => exact hc
  | later _ hle ih => exact htime _ _ _ hle ih
  | move _ hm ih => exact hmove _ _ _ ih hm

/-- What moves never change: the limit, and whether a transport is to be a TLS one. -/
theorem Move.settings_eq (h : Move t c c') : c'.limit = c.limit ∧ c'.tls = c.tls := by
  cases h with
  | hear data eof =>
    have hkept := readFrame_hear data eof c
    exact ⟨congrArg (·.limit) hkept, congrArg (·.tls) hkept⟩
  | awaitPace =>
    rw [Connection.awaitPace]
    split <;> exact ⟨rfl, rfl⟩
  | begin =>
    rw [Connection.begin]
    split <;> exact ⟨rfl, rfl⟩
  | opened hassign =>
    cases hassign with
    | _ => exact ⟨rfl, rfl⟩
  | @answer data eof =>
    have hkept := readFrame_hear data eof c
    exact ⟨congrArg (·.limit) hkept, congrArg (·.tls) hkept⟩
  | _ => exact ⟨rfl, rfl⟩

theorem Moves.settings_eq (h : Moves t c t' c') : c'.limit = c.limit ∧ c'.tls = c.tls := by
  induction h with
  | refl => exact ⟨rfl, rfl⟩
  | later _ hle ih => exact ih
  | move _ hm ih => exact ⟨hm.settings_eq.1.trans ih.1, hm.settings_eq.2.trans ih.2⟩

theorem Reads.moves (h : Reads c c') (t : ℕ) : Moves t c t c' := by
  induction h with
  | refl => exact .refl
  | hear _ hgoes ih => exact ih.move (.hear _ _)

theorem Exchange.moves (h : Exchange t t' c c') : Moves t c t' c' := by
  induction h with
  | refl => exact .refl
  | later _ hle ih => exact ih.later hle
  | awaitPace _ hpace hearly ih => exact ih.move (.awaitPace hpace hearly)
  | begin _ hpace ih => exact ih.move (.begin hpace)
  | advance _ hstarted hpos hle ih => exact ih.move (.advance hstarted hpos hle)
  | watch _ interest ih => exact ih.move (.watch (some interest))

theorem Reopens.moves {assign : Connection → Connection} {w w' : World}
    (h : Reopens assign w c c' w') (hassign : Assigns c assign) :
    Moves w.clock c w'.clock c' := by
  obtain ⟨addressIndex, now, hfrom, hto, rfl⟩ := h
  have hopened := (Moves.refl.later hfrom).move (.opened hassign addressIndex)
  exact (hopened.move (.watch (some ⟨true⟩))).later hto

theorem Answers.moves {response : CompletedResponse} (h : Answers t c c' response) (t₀ : ℕ) :
    Moves t₀ c t₀ (complete c'.clearReadBytes) := by
  cases h with
  | mk hreads hdata hdecoded =>
    exact ((hreads.moves t₀).move (.answer hdata hdecoded)).move .clearReadBytes

theorem GoesOn.moves {drawn : Drawn} {w w' : World} (h : GoesOn drawn w c c' w')
    (h₀ : Moves t c₀ w.clock (complete c)) : Moves t c₀ w'.clock c' := by
  have hturned := h₀.move (.next drawn)
  cases h with
  | reopened h => exact (hturned.move (.watch none)).trans (h.moves .next)
  | reused h => exact (hturned.move (.watch (some ⟨true⟩))).trans h.moves

end Connection

namespace Desk
open Connection

variable {token timeout : ℕ} {n : FailureCounts} {allowed : Counter → Prop} {d d₁ d' : Desk}

theorem Touches.moves (h : Touches d n d₁) :
    Moves d.world.clock d.connection d₁.world.clock d₁.connection := by
  induction h with
  | refl => exact .refl
  | exchange _ hx hw ih => exact ih.trans hx.moves
  | read _ hr hw ih => exact (((ih.trans (hr.moves _)).move .clearReadBytes).later hw.clock_le)

theorem Settles.moves (h : Settles token timeout allowed d d') :
    Moves d.world.clock d.connection d'.world.clock d'.connection := by
  cases h with
  | cameBack h hallowed hf hassign hback hw =>
    obtain ⟨tried, made, limited, htries, hopen⟩ := hback.reopens
    have hbegun := (h.moves.move (.watch none)).move (.attempts htries.spends)
    cases hassign with
    | inl h =>
      subst h
      exact (hbegun.trans (hopen.moves .retry)).move .clearRecoveryAttempts
    | inr h =>
      subst h
      exact (hbegun.trans (hopen.moves .recover)).move .clearRecoveryAttempts
  | gaveUp h hallowed hf hup hw =>
    have hspends := hup.spends
    obtain ⟨-, rfl, -⟩ := hup
    have hmoves := ((h.moves.move (.watch none)).move (.attempts hspends)).move .finish
    exact (hmoves.move .clearRecoveryAttempts).later hw.clock_le
  | ranOut h hallowed hf hlimit hw =>
    have hmoves := ((h.moves.move .clearRecoveryAttempts).move .finish).move (.watch none)
    exact hmoves.later hw.clock_le
  | stopped h hstop hw =>
    obtain ⟨interest, rfl⟩ := hstop.connection_eq
    exact ((h.moves.move .finish).move (.watch interest)).later hw.clock_le

theorem Turn.moves (h : Turn token timeout d d') :
    Moves d.world.clock d.connection d'.world.clock d'.connection := by
  cases h with
  | rested h => exact h.moves
  | begun h => exact h.moves
  | deferred h hf hstarted hpace hw =>
    exact ((h.moves.move (.watch none)).move (.defer hstarted hpace)).later hw.clock_le
  | settled h => exact h.moves
  | answeredLast hanswer hw₁ huri hw =>
    have hanswered := (hanswer.moves d.world.clock).later hw₁.clock_le
    exact ((hanswered.move .finish).move (.watch none)).later hw.clock_le
  | answeredNext hanswer hw₁ huri hw hon =>
    exact hon.moves ((hanswer.moves d.world.clock).later hw₁.clock_le)
  | resumed hre hopen hw => exact hopen.moves (.resume hre)

theorem Turns.moves (h : Turns token timeout d d') :
    Moves d.world.clock d.connection d'.world.clock d'.connection := by
  induction h with
  | refl => exact .refl
  | tail _ hturn ih => exact ih.trans hturn.2.moves

end Desk

end Rload
