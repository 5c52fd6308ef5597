import Rload.DrawLedger
import Rload.FilteredReplays
import Rload.ShuffledOrders

/-!
# Requests in rounds

A replay that does not draw at random has every entry drawn once before it starts over.
-/

namespace Rload

namespace RequestSequence

/-- What has been drawn of the current round, after `drawn` draws in all. -/
def AtRound (s : RequestSequence) (drawn : ℕ) (current : List ℕ) : Prop :=
  match s.timestampCursor, s.selection with
  | some cursor, _ => cursor < s.requests.length ∧ current = (List.range cursor).reverse
  | none, .sequential next =>
    next = drawn % 2 ^ 64 ∧ current = (List.range (drawn % s.requests.length)).reverse
  | none, .random _ _ => False
  | none, .shuffle state =>
    state.indices.Perm (List.range s.requests.length) ∧ state.offset ≤ s.requests.length ∧
      current = (state.indices.take state.offset).reverse

variable {s s' : RequestSequence} {drawn rounds : ℕ} {current entries : List ℕ}

/-- The next entry of a cursor that goes round. -/
theorem draws_cursor {n cursor : ℕ} (hcursor : cursor < n)
    (h : Rounds.Draws (List.range n) rounds (List.range cursor).reverse entries) :
    ∃ rounds, Rounds.Draws (List.range n) rounds (List.range ((cursor + 1) % n)).reverse
      (cursor :: entries) := by
  have hnext := h.draw (List.mem_range.mpr hcursor) (by simp)
  have hcons : cursor :: (List.range cursor).reverse = (List.range (cursor + 1)).reverse := by
    rw [List.range_succ, List.reverse_append]
    rfl
  rw [hcons] at hnext
  by_cases hlast : cursor + 1 = n
  · rw [hlast, Nat.mod_self]
    rw [hlast] at hnext
    exact ⟨rounds + 1, hnext.close (List.reverse_perm _)⟩
  · rw [Nat.mod_eq_of_lt (by omega)]
    exact ⟨rounds, hnext⟩

/-- The next entry is one that the current round does not have yet. The cursor of the sequential
order counts up to `2 ^ 64`. -/
theorem AtRound.select (h : s.AtRound drawn current) (hdrawn : drawn < 2 ^ 64)
    (hrounds : Rounds.Draws (List.range s.requests.length) rounds current entries) {index : ℕ}
    (hselect : s.select = .ok (index, s')) :
    s'.requests = s.requests ∧ ∃ rounds current,
      Rounds.Draws (List.range s.requests.length) rounds current (index :: entries) ∧
        s'.AtRound (drawn + 1) current := by
  unfold RequestSequence.select at hselect
  unfold AtRound at h
  split at hselect
  · cases hselect
  · rename_i hempty
    have hpos : 0 < s.requests.length := Nat.pos_of_ne_zero hempty
    split at hselect
    · rename_i cursor hcursor
      cases hselect
      rw [hcursor] at h
      obtain ⟨hlt, rfl⟩ := h
      obtain ⟨rounds, hnext⟩ := draws_cursor hlt hrounds
      exact ⟨rfl, rounds, _, hnext, Nat.mod_lt _ hpos, rfl⟩
    · rename_i hcursor
      rw [hcursor] at h
      split at hselect
      · rename_i next hselection
        cases hselect
        rw [hselection] at h
        obtain ⟨hcount, rfl⟩ := h
        rw [Nat.mod_eq_of_lt hdrawn] at hcount
        obtain ⟨rounds, hnext⟩ := draws_cursor (Nat.mod_lt drawn hpos) hrounds
        rw [Nat.mod_add_mod] at hnext
        refine ⟨rfl, rounds, _, hcount ▸ hnext, ?_⟩
        simp only [AtRound, hcursor]
        rw [hcount]
        exact ⟨rfl, rfl⟩
      · rename_i next seed hselection
        rw [hselection] at h
        exact h.elim
      · rename_i state hselection
        rw [hselection] at h
        obtain ⟨hperm, hoffset, rfl⟩ := h
        obtain ⟨⟨selected, state'⟩, hstate, hselect⟩ := ok_of_bind hselect
        cases hselect
        have hstate := ShuffleState.next_of_some (some_of_orHalt hstate)
        have hround : state.InRound s.requests.length rounds entries := ⟨hperm, hoffset, hrounds⟩
        obtain ⟨rounds, hnext⟩ := hround.next hstate
        refine ⟨rfl, rounds, _, hnext.inRounds, ?_⟩
        simp only [AtRound, hcursor]
        exact ⟨hnext.perm, hnext.offset_le, trivial⟩

theorem reserve_selection {request : EncodedRequest} {now : ℕ} {scheduled : Option ℕ}
    (h : s.reserve request now = .ok (scheduled, s')) :
    s'.requests = s.requests ∧ s'.timestampCursor = s.timestampCursor ∧
      s'.selection = s.selection := by
  unfold reserve at h
  split at h
  · obtain ⟨_, -, h⟩ := ok_of_bind h
    cases h
    exact ⟨rfl, rfl, rfl⟩
  · obtain ⟨_, -, h⟩ := ok_of_bind h
    obtain ⟨_, -, h⟩ := ok_of_bind h
    cases h
    exact ⟨rfl, rfl, rfl⟩
  · obtain ⟨_, -, h⟩ := ok_of_bind h
    cases h
    exact ⟨rfl, rfl, rfl⟩
  · cases h
    exact ⟨rfl, rfl, rfl⟩

theorem AtRound.next (h : s.AtRound drawn current) (hdrawn : drawn < 2 ^ 64)
    (hrounds : Rounds.Draws (List.range s.requests.length) rounds current entries) {now : ℕ}
    {d : Drawn} (hnext : s.next now = .ok (d, s')) :
    s'.requests = s.requests ∧ ∃ rounds current,
      Rounds.Draws (List.range s.requests.length) rounds current (d.entry :: entries) ∧
        s'.AtRound (drawn + 1) current := by
  obtain ⟨⟨index, s₁⟩, hselect, hnext⟩ := ok_of_bind hnext
  obtain ⟨request, -, hnext⟩ := ok_of_bind hnext
  obtain ⟨⟨scheduled, s₂⟩, hreserve, hnext⟩ := ok_of_bind hnext
  obtain ⟨method, -, hnext⟩ := ok_of_bind hnext
  cases hnext
  obtain ⟨hrequests, rounds, current, hdraws, hround⟩ := h.select hdrawn hrounds hselect
  obtain ⟨hkept, hcursor, hselection⟩ := reserve_selection hreserve
  refine ⟨hkept.trans hrequests, rounds, current, hdraws, ?_⟩
  unfold AtRound at hround ⊢
  rw [hkept, hcursor, hselection]
  exact hround

/-- The sequence draws in rounds. -/
theorem Issues.inRounds {issued : List Drawn} (h : s.Issues issued s') (hs : s.AtRound 0 [])
    (hlength : issued.length ≤ 2 ^ 64) :
    s'.requests = s.requests ∧ ∃ rounds current,
      Rounds.Draws (List.range s.requests.length) rounds current (issued.map (·.entry)) ∧
        s'.AtRound issued.length current := by
  induction h with
  | refl => exact ⟨rfl, 0, [], .start, hs⟩
  | draw _ hnext ih =>
    rw [List.length_cons] at hlength
    obtain ⟨hrequests, rounds, current, hdraws, hround⟩ := ih (by omega)
    rw [← hrequests] at hdraws ⊢
    obtain ⟨hkept, hmore⟩ := hround.next (by omega) hdraws hnext
    exact ⟨hkept, hmore⟩

theorem atRound_new {requests : List EncodedRequest} {order : ReplayOrder} {seed : UInt64}
    (horder : order ≠ .random) (h : RequestSequence.new requests order seed = some s) :
    s.requests = requests ∧ s.AtRound 0 [] := by
  obtain ⟨selection, hselection, rfl⟩ := Option.map_eq_some_iff.mp h
  refine ⟨rfl, ?_⟩
  cases order with
  | sequential =>
    cases hselection
    exact ⟨rfl, by simp⟩
  | random => exact absurd rfl horder
  | shuffle =>
    obtain ⟨state, hstate, rfl⟩ := Option.map_eq_some_iff.mp hselection
    have hround := ShuffleState.inRound_of_isNew (ShuffleState.isNew_of_reshuffle hstate)
    refine ⟨hround.perm, hround.offset_le, ?_⟩
    obtain ⟨-, -, -, hzero⟩ := ShuffleState.isNew_of_reshuffle hstate
    rw [hzero]
    rfl

end RequestSequence

theorem rounds_of_validate {options : ReplayOptions} {rounds : ℕ} {u : Unit}
    (h : validateReplayOptions options (some rounds) = .ok u) :
    0 < rounds ∧ options.order ≠ .random := by
  unfold validateReplayOptions at h
  split at h
  · cases h
  · split at h
    · cases h
    · rename_i hrounds
      split at h
      · cases h
      · rename_i horder
        constructor
        · exact Nat.pos_of_ne_zero fun hzero => hrounds (by rw [hzero])
        · simpa using horder

/-- A config that is valid is so with another limit that has requests. -/
theorem validate_limit {config : RunConfig} {count : ℕ} (h : config.validate = .ok ())
    (hpos : 0 < count) : { config with limit := .requests count }.validate = .ok () := by
  unfold RunConfig.validate at h ⊢
  split at h
  · cases h
  · rename_i hconnections
    split at h
    · cases h
    · rename_i hthreads
      split at h
      · cases h
      · rename_i htimeout
        rw [if_neg hconnections, if_neg hthreads, if_neg htimeout]
        obtain ⟨count, rfl⟩ := Nat.exists_eq_succ_of_ne_zero hpos.ne'
        rfl

/-- What a replay with rounds is prepared with. -/
structure PreparesRounds (requests : List EncodedRequest) (rounds : ℕ) (prepared : PreparedRun) :
    Prop where
  requests_eq : prepared.sequence.requests = requests
  atRound : prepared.sequence.AtRound 0 []
  valid : prepared.config.validate = .ok ()
  entries_eq : prepared.replayEntries = requests.length
  rounds_eq : prepared.configuredReplayRounds = some rounds
  limit_eq : prepared.config.limit = .requests (requests.length * rounds)
  lt_wordLimit : requests.length * rounds < wordLimit

theorem preparesRounds {config : RunConfig} {requests : List EncodedRequest}
    {options : ReplayOptions} {rounds filtered now : ℕ} {seed : UInt64} {prepared : PreparedRun}
    (hrequests : requests ≠ [])
    (h : prepareReplay config requests options (some rounds) filtered seed now =
      .ok (some prepared)) : PreparesRounds requests rounds prepared := by
  have hkept := prepareReplay_requests h
  have hlength : 0 < requests.length := List.length_pos_iff.mpr hrequests
  unfold prepareReplay at h
  split at h
  · cases h
  · cases h
  · cases h
  · rename_i config' hoptions hvalid hlimit
    injection h with h
    obtain ⟨sequence, hnew, rfl⟩ := Option.map_eq_some_iff.mp h
    obtain ⟨hpos, horder⟩ := rounds_of_validate hoptions
    obtain ⟨-, hround⟩ := RequestSequence.atRound_new horder hnew
    rw [replayLimit] at hlimit
    split_ifs at hlimit with hlt
    cases hlimit
    refine ⟨hkept, ?_, ?_, rfl, rfl, rfl, hlt⟩
    · have hpaced : ((sequence.withRate options.rate now).withStages options.stages).AtRound 0
          [] := by
        rw [RequestSequence.withStages]
        split <;> exact hround
      cases htimestamps : options.timestamps with
      | true =>
        rw [htimestamps] at hkept
        rw [← hkept] at hlength
        exact ⟨hlength, rfl⟩
      | false => exact hpaced
    · exact validate_limit hvalid (Nat.mul_pos hlength hpos)

end Rload
