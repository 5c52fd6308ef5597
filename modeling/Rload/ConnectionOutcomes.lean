import Rload.ConnectionEffects

/-!
# What the end of a request and failures do to a connection

The methods that finish a response, retry an address, recover a request, wait for a pace or
stop a connection: the connection they leave, as a function of the one they found, and the
failures they meet.
-/

namespace Rload
open StatefulPrograms

namespace Connection

variable (s : Session)

theorem askRegistry_spec (call : RegistryCall) (interest : Option Interest) :
    Ensures (askRegistry call interest) s
      (fun _ s' => s'.connection = s.connection.watch interest ∧ s.world.Later 0 s'.world)
      fun e s' => s'.connection = s.connection ∧ s.world.Raises .service e s'.world := by
  unfold askRegistry
  simp only [ensures_bind, ensures_get, ensures_world, ensures_update]
  apply (World.askRegistry_spec _ _ s.world).mono
  · intro _ w' h
    exact ⟨trivial, h⟩
  · intro e w' h
    exact ⟨trivial, h⟩

theorem reregister_spec (interest : Interest) :
    Ensures (reregister interest) s
      (fun _ s' => s'.connection = s.connection.watch (some interest) ∧
        s.world.Later 0 s'.world)
      fun e s' => s'.connection = s.connection ∧ s.world.Raises .service e s'.world :=
  askRegistry_spec s .reregister (some interest)

theorem deregister_spec :
    Ensures deregister s
      (fun _ s' => s'.connection = s.connection.watch none ∧ s.world.Later 0 s'.world)
      fun e s' => s'.connection = s.connection ∧ s.world.Raises .service e s'.world :=
  askRegistry_spec s .deregister none

theorem service_fatal (error : IoError) : Failure.fatal ⟨.service, error⟩ = true := rfl

theorem refreshInterest_spec :
    Ensures refreshInterest s
      (fun _ s' => ∃ interest, s'.connection = s.connection.watch (some interest) ∧
        s.world.Later 0 s'.world)
      fun e s' => s'.connection = s.connection ∧ s.world.Raises .service e s'.world := by
  unfold refreshInterest
  simp only [ensures_bind, ensures_get, ensures_world]
  apply (isEarly_spec s.connection s.world).mono
  · rintro early w₁ ⟨h₁, -⟩
    apply (Transport.interest_spec _ _ _ w₁).mono
    · intro interest w₂ h₂
      have h₂ := h₁.zero_trans h₂
      apply (reregister_spec ⟨s.connection, w₂⟩ interest).mono
      · rintro _ s' ⟨hc, hw⟩
        exact ⟨interest, hc, h₂.zero_trans hw⟩
      · rintro e s' ⟨hc, hw⟩
        exact ⟨hc, h₂.raises hw⟩
    · intro _ _ h
      exact h.elim
  · intro _ _ h
    exact h.elim

theorem takeError_spec {operation : Bool → Bool → Operation}
    (hf : ∀ started written error, Failure.fatal ⟨operation started written, error⟩ = false) :
    Ensures (takeError operation) s
      (fun error s' => s'.connection = s.connection ∧
        s.world.Later ((error.map fun error => Failure.cost
          ⟨operation s.connection.hasStarted s.connection.requestIsWritten, error⟩).getD 0)
          s'.world)
      fun e s' => s'.connection = s.connection ∧ s.world.Raises .service e s'.world := by
  unfold takeError
  simp only [ensures_bind, ensures_world]
  apply (World.service_spec s.world).mono
  · intro reply w' h
    cases reply.pending with
    | none => exact ⟨rfl, h⟩
    | some error =>
      simp only [ensures_bind, ensures_get, ensures_world, ensures_modify, ensures_pure]
      exact ⟨trivial, h.zero_trans (World.later_note (hf _ _ _))⟩
  · intro e w' h
    exact ⟨trivial, h⟩

/-- The connection over a new transport that the poll watches. -/
def reopened (assign : Connection → Connection) (addressIndex now : ℕ) (c : Connection) :
    Connection :=
  (withStream ⟨c.tls, none⟩ addressIndex now (assign c)).watch (some ⟨true⟩)

/-- The connection is reopened between two worlds. -/
def Reopens (assign : Connection → Connection) (w : World) (c c' : Connection) (w' : World) :
    Prop :=
  ∃ addressIndex now, w.clock ≤ now ∧ now ≤ w'.clock ∧ c' = reopened assign addressIndex now c

theorem Reopens.from_earlier {assign : Connection → Connection} {w w' w'' : World}
    {c c' : Connection} (h : Reopens assign w' c c' w'') (hle : w.clock ≤ w'.clock) :
    Reopens assign w c c' w'' := by
  obtain ⟨addressIndex, now, hfrom, hto, hc⟩ := h
  exact ⟨addressIndex, now, hle.trans hfrom, hto, hc⟩

theorem ensures_reopen {addressIndex : ℕ} {assign : Connection → Connection} {s : Session}
    {Q : Session → Prop} {E : Halt → Session → Prop}
    (hQ : ∀ s', Reopens assign s.world s.connection s'.connection s'.world →
      s.world.Later 0 s'.world → Q s')
    (hE : ∀ e s', s.world.Ends e s'.world → E e s') :
    Ensures (adopt addressIndex assign) s
      (fun _ s₁ => Ensures register s₁ (fun _ s' => Q s') E) E := by
  unfold adopt register
  simp only [ensures_bind, ensures_get, ensures_world, ensures_update]
  apply (Transport.new_spec false s.connection.tls s.world).mono
  · rintro stream w₁ ⟨rfl, h₁⟩
    apply World.ensures_now
    intro w₂ h₂
    have h₂' := h₁.zero_trans h₂
    apply (askRegistry_spec ⟨_, w₂⟩ .register (some ⟨true⟩)).mono
    · rintro _ s' ⟨hc, hw⟩
      exact hQ s' ⟨addressIndex, w₂.clock, h₂'.clock_le, hw.clock_le, hc⟩ (h₂'.zero_trans hw)
    · rintro e s' ⟨-, hw⟩
      exact hE e s' (h₂'.ends (hw.ends service_fatal))
  · rintro e w' ⟨-, he, hw⟩
    exact hE e _ (hw.ends_of_not_io he)

theorem connectFrom_ends {operation : Operation} (hf : ∀ error, Failure.fatal ⟨operation, error⟩)
    (addresses : List SocketAddr) (start : ℕ) (w : World) :
    Ensures (connectFrom operation addresses start) w (fun _ w' => w.Later 0 w')
      fun e w' => w.Ends e w' := by
  apply (connectFrom_spec operation addresses start w).mono
  · intro _ w' h
    exact h
  · intro e w' h
    exact World.Raises.ends (Or.inl h) hf

/-- The attempts to recover that were made, those of them that were counted, and those that
are limited. -/
def attempts (tried made limited : ℕ) (c : Connection) : Connection :=
  { c with
    pendingRecoveryAttempts := c.pendingRecoveryAttempts + made
    recoveryAttempts := c.recoveryAttempts + limited
    history := List.replicate tried .attempted ++ c.history }

theorem attempts_countAttempt (n : ℕ) (c : Connection) :
    attempts n n n (happen .attempted (countAttempt true c)) =
      attempts (n + 1) (n + 1) (n + 1) c := by
  have hhistory : List.replicate n Happening.attempted ++ .attempted :: c.history =
      List.replicate (n + 1) .attempted ++ c.history := by
    rw [List.replicate_succ', List.append_assoc, List.singleton_append]
  simp only [attempts, countAttempt, happen, if_true, Nat.add_assoc, Nat.add_comm 1, hhistory]

theorem connectLoop_spec {operation : Operation}
    (hf : ∀ error, Failure.fatal ⟨operation, error⟩ = false)
    (hcount : ∀ error, Failure.counter ⟨operation, error⟩ = some .attempts) (start fuel : ℕ)
    (hleft : s.connection.recoveryAttempts < fixedRequestRecoveryAttempts)
    (hfuel : fixedRequestRecoveryAttempts ≤ s.connection.recoveryAttempts + fuel) :
    Ensures (connectLoop operation start fuel) s
      (fun result s' => ∃ k, s.world.Later (Pi.single .attempts k) s'.world ∧
        match result with
        | some _ => s'.connection = attempts (k + 1) (k + 1) (k + 1) s.connection ∧
            s.connection.recoveryAttempts + k < fixedRequestRecoveryAttempts
        | none => s'.connection = finish (attempts k k k s.connection) ∧
            s.connection.recoveryAttempts + k = fixedRequestRecoveryAttempts)
      fun _ _ => False := by
  induction fuel generalizing s with
  | zero => omega
  | succ fuel ih =>
    simp only [connectLoop, ensures_bind, ensures_update, ensures_get, ensures_world]
    apply ensures_attempt
    apply (connectFrom_spec operation s.connection.addresses start s.world).mono
    · intro addressIndex w' h
      exact ⟨0, h.no_attempts, rfl, hleft⟩
    · rintro e w' ⟨error, w₁, rfl, hw, rfl⟩
      refine ⟨?_, by simp [ioError]⟩
      intro error' herror
      have hw' := hw.zero_trans (World.later_note_counted (hf error) (hcount error))
      simp only [ensures_ite, ensures_update, ensures_bind, ensures_world, ensures_pure]
      have hrecovery : (happen .attempted (countAttempt true s.connection)).recoveryAttempts =
          s.connection.recoveryAttempts + 1 := rfl
      refine ⟨fun hfull => ?_, fun hfull => ?_⟩
      · rw [hrecovery] at hfull
        exact ⟨1, hw', rfl, by omega⟩
      · rw [hrecovery] at hfull
        apply World.ensures_sleep
        intro w₂ h₂
        have hless : s.connection.recoveryAttempts + 1 < fixedRequestRecoveryAttempts := by omega
        have hmore : fixedRequestRecoveryAttempts ≤
            s.connection.recoveryAttempts + 1 + fuel := by omega
        apply (ih ⟨happen .attempted (countAttempt true s.connection), w₂⟩ hless hmore).mono
        · rintro result s' ⟨k, hk, hresult⟩
          have hk' := hw'.trans (h₂.zero_trans hk)
          rw [← Pi.single_add, Nat.add_comm] at hk'
          refine ⟨k + 1, hk', ?_⟩
          cases result with
          | none =>
            obtain ⟨hc, hr⟩ := hresult
            rw [attempts_countAttempt] at hc
            rw [hrecovery] at hr
            exact ⟨hc, by omega⟩
          | some addressIndex =>
            obtain ⟨hc, hr⟩ := hresult
            rw [attempts_countAttempt] at hc
            rw [hrecovery] at hr
            exact ⟨hc, by omega⟩
        · intro _ _ h
          exact h

/-- The attempts of a success after `k` failures. -/
inductive Tries (limit : ConnectionLimit) (used : ℕ) : ℕ → ℕ → ℕ → ℕ → Prop
  | fixed {count k : ℕ} (h : limit = .requests count)
    (hk : used + k < fixedRequestRecoveryAttempts) :
      Tries limit used k (k + 1) (k + 1) (k + 1)
  | deadline {time : ℕ} (made : ℕ) (h : limit = .deadline time) : Tries limit used 0 1 made 0

/-- A connection with a fixed limit gives up after `k` more attempts. -/
structure GivesUp (k : ℕ) (c c' : Connection) : Prop where
  limit_eq : ∃ count, c.limit = .requests count
  connection_eq : c' = finish (attempts k k k (c.watch none))
  used_up : fixedRequestRecoveryAttempts ≤ c.recoveryAttempts + k
  within : k = 0 ∨ c.recoveryAttempts + k ≤ fixedRequestRecoveryAttempts

/-- The attempts that a connection makes are within its budget. -/
def Spends (c : Connection) (tried made limited : ℕ) : Prop :=
  ∀ count, c.limit = .requests count → made = tried ∧ limited = tried ∧
    (tried = 0 ∨ c.recoveryAttempts + tried ≤ fixedRequestRecoveryAttempts)

theorem Tries.spends {c : Connection} {k tried made limited : ℕ}
    (h : Tries c.limit c.recoveryAttempts k tried made limited) : Spends c tried made limited := by
  intro count hlimit
  cases h with
  | fixed h hk => exact ⟨rfl, rfl, Or.inr hk⟩
  | deadline made h => exact absurd (h.symm.trans hlimit) (by simp)

theorem GivesUp.spends {k : ℕ} {c c' : Connection} (h : GivesUp k c c') : Spends c k k k :=
  fun _ _ => ⟨rfl, rfl, h.within⟩

/-- A connection is reopened after `k` failed attempts. -/
structure ComesBack (assign : Connection → Connection) (k : ℕ) (w : World) (c c' : Connection)
    (w' : World) : Prop where
  reopens : ∃ tried made limited, Tries c.limit c.recoveryAttempts k tried made limited ∧
    Reopens assign w (attempts tried made limited (c.watch none)) c' w'

theorem retryAddress_spec :
    Ensures retryAddress s
      (fun retried s' => ∃ k, s.world.Later (Pi.single .attempts k) s'.world ∧
        if retried then ComesBack toRetry k s.world s.connection s'.connection s'.world
        else GivesUp k s.connection s'.connection)
      fun e s' => s.world.Ends e s'.world := by
  unfold retryAddress
  simp only [ensures_bind, ensures_get]
  apply (deregister_spec s).mono
  · rintro _ s₁ ⟨hc, h₁⟩
    have hlimit : s₁.connection.limit = s.connection.limit := by rw [hc]; rfl
    have hused : s₁.connection.recoveryAttempts = s.connection.recoveryAttempts := by rw [hc]; rfl
    rw [hlimit]
    cases hl : s.connection.limit with
    | requests count =>
      simp only [ensures_ite, ensures_bind, ensures_update, ensures_pure]
      refine ⟨fun hfull => ?_, fun hfull => ?_⟩
      · refine ⟨0, h₁.no_attempts, ⟨⟨count, hl⟩, by rw [hc]; rfl, ?_, Or.inl rfl⟩⟩
        rw [← hused]
        exact hfull
      · apply (connectLoop_spec s₁ (fun _ => rfl) (fun _ => rfl) _ _ (by omega) (by omega)).mono
        · rintro result s₂ ⟨k, hk, hresult⟩
          have h₂ := h₁.zero_trans hk
          cases result with
          | none =>
            obtain ⟨hc₂, hr⟩ := hresult
            rw [hused] at hr
            exact ⟨k, h₂, ⟨⟨count, hl⟩, by rw [hc₂, hc], hr.ge, Or.inr hr.le⟩⟩
          | some addressIndex =>
            obtain ⟨hc₂, hr⟩ := hresult
            rw [hused] at hr
            simp only [ensures_bind, ensures_pure]
            apply ensures_reopen
            · intro s₃ hreopens h₃
              rw [hc₂, hc] at hreopens
              have h₃ := h₂.trans h₃
              rw [add_zero] at h₃
              refine ⟨k, h₃, ⟨k + 1, k + 1, k + 1, .fixed hl hr, ?_⟩⟩
              exact hreopens.from_earlier h₂.clock_le
            · intro e s₃ he
              exact h₂.ends he
        · intro _ _ h
          exact h.elim
    | deadline time =>
      simp only [ensures_bind, ensures_pure, ensures_world, ensures_update]
      apply (connectFrom_ends (fun _ => rfl) _ _ s₁.world).mono
      · intro addressIndex w₂ h₂
        have h₂ := h₁.zero_trans h₂
        apply ensures_reopen
        · intro s₃ hreopens h₃
          refine ⟨0, (h₂.zero_trans h₃).no_attempts, ⟨1, 0, 0, .deadline 0 hl, ?_⟩⟩
          rw [hc] at hreopens
          exact hreopens.from_earlier h₂.clock_le
        · intro e s₃ he
          exact h₂.ends he
      · intro e w₂ he
        exact h₁.ends he
  · rintro e s' ⟨-, hw⟩
    exact hw.ends service_fatal

theorem recoverRequest_spec :
    Ensures recoverRequest s
      (fun recovered s' => ∃ k, s.world.Later (Pi.single .attempts k) s'.world ∧
        if recovered then
          ComesBack toRecover k s.world s.connection s'.connection s'.world
        else GivesUp k s.connection s'.connection ∨
          k = 0 ∧ s'.connection = s.connection ∧
            ∃ time, s.connection.limit = .deadline time ∧ time ≤ s'.world.clock)
      fun e s' => s.world.Ends e s'.world := by
  unfold recoverRequest
  simp only [ensures_bind, ensures_get]
  cases hl : s.connection.limit with
  | requests count =>
    simp only [ensures_ite, ensures_bind, ensures_update, ensures_pure]
    refine ⟨fun hfull => ?_, fun hfull => ?_⟩
    · apply (deregister_spec ⟨finish s.connection, s.world⟩).mono
      · rintro _ s₁ ⟨hc, h₁⟩
        exact ⟨0, h₁.no_attempts, Or.inl ⟨⟨count, hl⟩, hc, hfull, Or.inl rfl⟩⟩
      · rintro e s₁ ⟨-, hw⟩
        exact hw.ends service_fatal
    · apply (deregister_spec s).mono
      · rintro _ s₁ ⟨hc, h₁⟩
        have hused : s₁.connection.recoveryAttempts = s.connection.recoveryAttempts := by
          rw [hc]
          rfl
        apply (connectLoop_spec s₁ (fun _ => rfl) (fun _ => rfl) _ _ (by omega) (by omega)).mono
        · rintro result s₂ ⟨k, hk, hresult⟩
          have h₂ := h₁.zero_trans hk
          cases result with
          | none =>
            obtain ⟨hc₂, hr⟩ := hresult
            rw [hused] at hr
            exact ⟨k, h₂, Or.inl ⟨⟨count, hl⟩, by rw [hc₂, hc], hr.ge, Or.inr hr.le⟩⟩
          | some addressIndex =>
            obtain ⟨hc₂, hr⟩ := hresult
            rw [hused] at hr
            simp only [ensures_bind, ensures_pure]
            apply ensures_reopen
            · intro s₃ hreopens h₃
              rw [hc₂, hc] at hreopens
              have h₃ := h₂.trans h₃
              rw [add_zero] at h₃
              refine ⟨k, h₃, ⟨k + 1, k + 1, k + 1, .fixed hl hr, ?_⟩⟩
              exact hreopens.from_earlier h₂.clock_le
            · intro e s₃ he
              exact h₂.ends he
        · intro _ _ h
          exact h.elim
      · rintro e s₁ ⟨-, hw⟩
        exact hw.ends service_fatal
  | deadline time =>
    simp only [ensures_bind, ensures_world]
    apply World.ensures_now
    intro w₁ h₁
    simp only [ensures_ite, ensures_bind, ensures_update, ensures_pure, ensures_world]
    refine ⟨fun hover => ⟨0, h₁.no_attempts, Or.inr ⟨rfl, trivial, time, rfl, hover⟩⟩,
      fun hover => ?_⟩
    apply (deregister_spec ⟨s.connection, w₁⟩).mono
    · rintro _ s₂ ⟨hc, h₂⟩
      have h₂ := h₁.zero_trans h₂
      apply (connectFrom_ends (fun _ => rfl) _ _ s₂.world).mono
      · intro addressIndex w₃ h₃
        have h₃ := h₂.zero_trans h₃
        apply ensures_reopen
        · intro s₄ hreopens h₄
          refine ⟨0, (h₃.zero_trans h₄).no_attempts, ⟨1, 1, 0, .deadline 1 hl, ?_⟩⟩
          rw [hc] at hreopens
          exact hreopens.from_earlier h₃.clock_le
        · intro e s₄ he
          exact h₃.ends he
      · intro e w₃ he
        exact h₂.ends he
    · rintro e s₂ ⟨-, hw⟩
      exact h₁.ends (hw.ends service_fatal)

theorem deferReconnectUntilPace_spec :
    Ensures deferReconnectUntilPace s
      (fun deferred s' => s.world.Later 0 s'.world ∧
        if deferred then s'.connection = defer (s.connection.watch none) ∧
          s.connection.started = none ∧ s.connection.notBefore.isSome
        else s'.connection = s.connection)
      fun e s' => s.world.Ends e s'.world := by
  unfold deferReconnectUntilPace
  simp only [ensures_bind, ensures_get, ensures_ite, ensures_world, ensures_pure]
  refine ⟨fun _ => ⟨.refl _, trivial⟩, fun hstarted => ?_⟩
  apply (isEarly_spec s.connection s.world).mono
  · rintro early w₁ ⟨h₁, hearly⟩
    refine ⟨fun he => ?_, fun _ => ⟨h₁, trivial⟩⟩
    rw [he] at hearly
    obtain ⟨notBefore, hpace, -⟩ := hearly
    apply (deregister_spec ⟨s.connection, w₁⟩).mono
    · rintro _ s₂ ⟨hc, h₂⟩
      refine ⟨h₁.zero_trans h₂, ?_, ?_, ?_⟩
      · exact congrArg defer hc
      · simpa using hstarted
      · rw [hpace]
        rfl
    · rintro e s₂ ⟨-, hw⟩
      exact h₁.ends (hw.ends service_fatal)
  · intro _ _ h
    exact h.elim

theorem resumeAtPace_spec :
    Ensures resumeAtPace s
      (fun _ s' => s.world.Later 0 s'.world ∧
        if s.connection.reconnectAtPace then
          Reopens toResume s.world s.connection s'.connection
            s'.world
        else ∃ interest, s'.connection = s.connection.watch (some interest))
      fun e s' => s.world.Ends e s'.world := by
  unfold resumeAtPace
  simp only [ensures_bind, ensures_get, ensures_ite, ensures_world]
  refine ⟨fun hre => ?_, fun hre => ?_⟩
  · apply (connectFrom_ends (fun _ => rfl) _ _ s.world).mono
    · intro addressIndex w₁ h₁
      apply ensures_reopen
      · intro s₂ hreopens h₂
        refine ⟨h₁.zero_trans h₂, ?_⟩
        rw [if_pos hre]
        exact hreopens.from_earlier h₁.clock_le
      · intro e s₂ he
        exact h₁.ends he
    · intro e w₁ he
      exact he
  · apply (refreshInterest_spec s).mono
    · rintro _ s' ⟨interest, hc, hw⟩
      refine ⟨hw, ?_⟩
      rw [if_neg hre]
      exact ⟨interest, hc⟩
    · rintro e s' ⟨-, hw⟩
      exact hw.ends service_fatal

theorem stopAfterDurationError_spec :
    Ensures stopAfterDurationError s
      (fun stopped s' => s.world.Later 0 s'.world ∧
        if stopped then s'.connection = (finish s.connection).watch none ∧
          ∃ time, s.connection.limit = .deadline time
        else s'.connection = s.connection ∧
          ∀ time, s.connection.limit = .deadline time → s'.world.clock < time)
      fun e s' => s.world.Ends e s'.world := by
  unfold stopAfterDurationError
  simp only [ensures_bind, ensures_get]
  cases hl : s.connection.limit with
  | requests count => exact ⟨.refl _, rfl, by simp⟩
  | deadline time =>
    simp only [ensures_bind, ensures_world]
    apply World.ensures_now
    intro w₁ h₁
    simp only [ensures_ite, ensures_bind, ensures_update, ensures_pure]
    refine ⟨fun hover => ?_, fun hover => ⟨h₁, trivial, ?_⟩⟩
    · apply (deregister_spec ⟨finish s.connection, w₁⟩).mono
      · rintro _ s₂ ⟨hc, h₂⟩
        exact ⟨h₁.zero_trans h₂, hc, time, rfl⟩
      · rintro e s₂ ⟨-, hw⟩
        exact h₁.ends (hw.ends service_fatal)
    · intro time' h
      cases h
      exact Nat.lt_of_not_le hover

/-- An unstarted connection stops because its limit is reached. -/
structure Stops (c c' : Connection) : Prop where
  connection_eq : ∃ interest, c' = (finish c).watch interest
  started_eq : c.started = none
  reached : ∀ count, c.limit = .requests count → count ≤ c.completed

theorem stopIfExpired_spec :
    Ensures stopIfExpired s
      (fun stopped s' => s.world.Later 0 s'.world ∧
        if stopped then Stops s.connection s'.connection else s'.connection = s.connection)
      fun e s' => s.world.Ends e s'.world := by
  unfold stopIfExpired
  simp only [ensures_bind, ensures_get, ensures_ite, ensures_world, ensures_pure]
  refine ⟨fun _ => ⟨.refl _, trivial⟩, fun hstarted => ?_⟩
  have hnone : s.connection.started = none := by simpa using hstarted
  apply (s.connection.limit.shouldContinue_spec s.connection.completed s.world).mono
  · rintro more w₁ ⟨h₁, hmore⟩
    refine ⟨fun _ => ⟨h₁, trivial⟩, fun hstop => ?_⟩
    have hreached : ∀ count, s.connection.limit = .requests count →
        count ≤ s.connection.completed := by
      intro count hl
      rw [hmore count hl] at hstop
      simpa using hstop
    simp only [ensures_update]
    refine ⟨fun _ => ?_, fun _ => ?_⟩
    · exact ⟨h₁, ⟨s.connection.stream.registered, rfl⟩, hnone, hreached⟩
    · apply (deregister_spec ⟨finish s.connection, w₁⟩).mono
      · rintro _ s₂ ⟨hc, h₂⟩
        exact ⟨h₁.zero_trans h₂, ⟨none, hc⟩, hnone, hreached⟩
      · rintro e s₂ ⟨-, hw⟩
        exact h₁.ends (hw.ends service_fatal)
  · intro _ _ h
    exact h.elim

theorem expire_spec :
    Ensures expire s
      (fun expiration s' => s.world.Later 0 s'.world ∧
        match expiration with
        | .stopped => Stops s.connection s'.connection
        | .requestTimeout => s'.connection = s.connection ∧ s.connection.started.isSome
        | .connectionTimeout => s'.connection = s.connection ∧ s.connection.started = none)
      fun e s' => s.world.Ends e s'.world := by
  unfold expire
  simp only [ensures_bind, ensures_get, ensures_ite, ensures_world, ensures_pure]
  refine ⟨fun hstarted => ⟨.refl _, trivial, hstarted⟩, fun hstarted => ?_⟩
  have hnone : s.connection.started = none := by simpa using hstarted
  apply (s.connection.limit.shouldContinue_spec s.connection.completed s.world).mono
  · rintro more w₁ ⟨h₁, hmore⟩
    refine ⟨fun _ => ⟨h₁, trivial, hnone⟩, fun hstop => ?_⟩
    simp only [ensures_update]
    apply (deregister_spec ⟨finish s.connection, w₁⟩).mono
    · rintro _ s₂ ⟨hc, h₂⟩
      refine ⟨h₁.zero_trans h₂, ⟨none, hc⟩, hnone, ?_⟩
      intro count hl
      rw [hmore count hl] at hstop
      simpa using hstop
    · rintro e s₂ ⟨-, hw⟩
      exact h₁.ends (hw.ends service_fatal)
  · intro _ _ h
    exact h.elim

/-- The connection that has answered its request and drawn the next one. -/
def turned (drawn : Drawn) (c : Connection) : Connection :=
  unstart (install drawn (rewind (complete c)))

/-- The next request begins on a new transport or on the one there is. -/
inductive GoesOn (drawn : Drawn) (w : World) (c c' : Connection) (w' : World) : Prop
  | reopened (h : Reopens id w ((turned drawn c).watch none) c' w')
  | reused (h : Exchange w.clock w'.clock ((turned drawn c).watch (some ⟨true⟩)) c')

theorem finishResponse_spec (connectionClose : Bool) :
    Ensures (finishResponse connectionClose) s
      (fun finished s' =>
        if finished then s.world.Later 0 s'.world ∧
          s'.connection = (finish (complete s.connection)).watch none ∧
          ∀ count, s.connection.limit = .requests count → count ≤ s.connection.completed + 1
        else (∃ drawn, s.world.Draws drawn s'.world ∧
            GoesOn drawn s.world s.connection s'.connection s'.world) ∧
          ∀ count, s.connection.limit = .requests count → s.connection.completed + 1 < count)
      fun e s' => s.world.Ends e s'.world := by
  unfold finishResponse
  simp only [ensures_bind, ensures_get, ensures_update, ensures_world]
  apply ((complete s.connection).limit.shouldContinue_spec
    (complete s.connection).completed s.world).mono
  · rintro more w₁ ⟨h₁, hmore⟩
    simp only [ensures_ite]
    refine ⟨fun hgo => ?_, fun hstop => ?_⟩
    · have hbelow : ∀ count, s.connection.limit = .requests count →
          s.connection.completed + 1 < count := by
        intro count hl
        rw [hmore count hl] at hgo
        exact of_decide_eq_true hgo
      simp only [installNextRequest, ensures_bind, ensures_update, ensures_world]
      apply (World.drawRequest_spec w₁).mono
      · intro drawn w₂ h₂
        have h₂ := h₁.draws h₂
        simp only [ensures_ite, ensures_bind, ensures_pure]
        refine ⟨fun _ => ?_, fun _ => ?_⟩
        · apply (deregister_spec ⟨turned drawn s.connection, w₂⟩).mono
          · rintro _ s₃ ⟨hc, h₃⟩
            have h₃ := h₂.later h₃
            simp only [ensures_get, ensures_world]
            apply (connectFrom_ends (fun _ => rfl) _ _ s₃.world).mono
            · intro addressIndex w₄ h₄
              have h₄ := h₃.later h₄
              apply ensures_reopen
              · intro s₅ hreopens h₅
                refine ⟨⟨drawn, h₄.later h₅, .reopened ?_⟩, hbelow⟩
                rw [hc] at hreopens
                exact hreopens.from_earlier h₄.clock_le
              · intro e s₅ he
                exact h₄.ends he
            · intro e w₄ he
              exact h₃.ends he
          · rintro e s₃ ⟨-, hw⟩
            exact h₂.ends (hw.ends service_fatal)
        · apply (reregister_spec ⟨turned drawn s.connection, w₂⟩ ⟨true⟩).mono
          · rintro _ s₃ ⟨hc, h₃⟩
            have h₃ := h₂.later h₃
            apply (writeRequest_spec s₃ fun _ => .writeNext).mono
            · rintro _ s₄ ⟨hx, h₄⟩
              have h₄' := h₃.later h₄
              apply (refreshInterest_spec s₄).mono
              · rintro _ s₅ ⟨interest, hc₅, h₅⟩
                refine ⟨⟨drawn, h₄'.later h₅, .reused ?_⟩, hbelow⟩
                rw [hc₅]
                rw [hc] at hx
                exact (hx.mono h₃.clock_le h₅.clock_le).watch interest
              · rintro e s₅ ⟨-, hw⟩
                exact h₄'.ends (hw.ends service_fatal)
            · rintro e s₄ ⟨-, hw⟩
              exact h₃.ends (hw.ends fun _ => rfl)
          · rintro e s₃ ⟨-, hw⟩
            exact h₂.ends (hw.ends service_fatal)
      · rintro e w₂ ⟨he, hw⟩
        exact (h₁.zero_trans hw).ends_of_not_io (Halt.isIo_of_not_runError he)
    · simp only [ensures_bind, ensures_update, ensures_pure]
      apply (deregister_spec ⟨finish (complete s.connection), w₁⟩).mono
      · rintro _ s₂ ⟨hc, h₂⟩
        refine ⟨h₁.zero_trans h₂, hc, ?_⟩
        intro count hl
        rw [hmore count hl, decide_eq_true_eq] at hstop
        exact Nat.le_of_not_lt hstop
      · rintro e s₂ ⟨-, hw⟩
        exact h₁.ends (hw.ends service_fatal)
  · intro _ _ h
    exact h.elim

end Connection

end Rload
