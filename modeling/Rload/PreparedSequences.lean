import Rload.RequestRoundTrip
import Rload.SequenceRounds
import Rload.SoundCalls
import Rload.StagePacing
import Rload.TimestampPacing

/-!
# Prepared sequences

The entries of a prepared sequence have their URI and their method in place, and each draw finds
one of them. So a draw halts only where random numbers never get to a bound, where the gap
between two timestamps is no duration, or where a pacer gets to the last instant.
-/

namespace Rload
open TextScanning

section Results

variable {α β : Type} {allowed : Halt → Prop} {P : α → Prop} {Q : β → Prop}

/-- A result for which `P` holds, or a halt that is allowed. -/
def Meets (allowed : Halt → Prop) (P : α → Prop) : Except Halt α → Prop
  | .ok a => P a
  | .error halt => allowed halt

theorem Meets.bind {x : Except Halt α} {f : α → Except Halt β} (h : Meets allowed P x)
    (hf : ∀ a, P a → Meets allowed Q (f a)) : Meets allowed Q (x >>= f) := by
  cases x with
  | error halt => exact h
  | ok a => exact hf a h

theorem meets_orHalt {halt : Halt} {o : Option α} (hsome : ∀ a, o = some a → P a)
    (hnone : o = none → allowed halt) : Meets allowed P (orHalt halt o) := by
  cases o with
  | none => exact hnone rfl
  | some a => exact hsome a rfl

end Results

/-- The URI is a text of the bytes and the method is one that there is. -/
structure EncodedRequest.Sound (r : EncodedRequest) : Prop where
  text : IsText r.bytes ((r.methodUriStart &&& 0x1fffffff).toNat, r.uriEnd.toNat)
  method : (Method.all[(r.methodUriStart >>> 29).toNat]?).isSome

/-- The end of the URI fits the 32 bits that an entry has for it. -/
def FitsEntry (path : List Char) : Prop := (encodeUtf8 path).length + 8 < 2 ^ 32

instance (path : List Char) : Decidable (FitsEntry path) := inferInstanceAs (Decidable (_ < _))

theorem isText_middle (front rest : List UInt8) (path : List Char) :
    IsText (front ++ (encodeUtf8 path ++ rest))
      (front.length, front.length + (encodeUtf8 path).length) := by
  refine ⟨Nat.le_add_right _ _, ?_, ?_⟩
  · rw [List.length_append, List.length_append]
    omega
  · rw [List.drop_left, Nat.add_sub_cancel_left, List.take_left, decodeUtf8_encodeUtf8]
    rfl

theorem sound_of_bytes {method : Method} {path : List Char} (h : FitsEntry path)
    {r : EncodedRequest} {rest : List UInt8}
    (hbytes : r.bytes = encodeUtf8 (method.asStr ++ [' ']) ++ (encodeUtf8 path ++ rest))
    (hstart : r.methodUriStart = methodUriStart method ((encodeUtf8 method.asStr).length + 1))
    (hend : r.uriEnd =
      UInt32.ofNat ((encodeUtf8 method.asStr).length + 1 + (encodeUtf8 path).length)) :
    r.Sound := by
  obtain ⟨hmethod, hplace, hshort⟩ := methodUriStart_method method
  have hfront : (encodeUtf8 (method.asStr ++ [' '])).length =
      (encodeUtf8 method.asStr).length + 1 := by
    rw [encodeUtf8_append, List.length_append]
    rfl
  have hfits : (encodeUtf8 method.asStr).length + 1 + (encodeUtf8 path).length < 2 ^ 32 := by
    unfold FitsEntry at h
    omega
  constructor
  · rw [hstart, hend, hplace, UInt32.toNat_ofNat', Nat.mod_eq_of_lt hfits, hbytes, ← hfront]
    exact isText_middle _ _ _
  · rw [hstart, hmethod]
    rfl

theorem sound_encodedReplayRequest (t : Target) {r : ReplayRequest} (h : FitsEntry r.path) :
    (t.encodedReplayRequest r).Sound := by
  obtain ⟨rest, hbytes⟩ : ∃ rest, (t.encodedReplayRequest r).bytes =
      encodeUtf8 (r.method.asStr ++ [' ']) ++ (encodeUtf8 r.path ++ rest) := by
    simp only [Target.encodedReplayRequest, Target.replayRequest, encodeUtf8_append,
      List.append_assoc]
    exact ⟨_, rfl⟩
  exact sound_of_bytes h hbytes rfl rfl

theorem sound_encodedDefaultRequest {t : Target} (method : Method) (h : FitsEntry t.path) :
    (t.encodedDefaultRequest method).Sound := by
  obtain ⟨rest, hbytes⟩ : ∃ rest, (t.encodedDefaultRequest method).bytes =
      encodeUtf8 (method.asStr ++ [' ']) ++ (encodeUtf8 t.path ++ rest) := by
    simp only [Target.encodedDefaultRequest, Target.request, Target.requestFor, encodeUtf8_append,
      List.append_assoc]
    exact ⟨_, rfl⟩
  exact sound_of_bytes h hbytes rfl rfl

/-- The options have a rate, timestamps or stages. -/
def ReplayOptions.IsPaced (options : ReplayOptions) : Prop :=
  options.rate.isSome ∨ options.timestamps = true ∨ options.stages ≠ []

/-- The halts that checked options leave possible. -/
def ReplayOptions.MayHalt (options : ReplayOptions) (halt : Halt) : Prop :=
  (options.order ≠ .sequential ∧ halt = .diverge) ∨
    (options.timestamps = true ∧ halt = .panic "can not convert float seconds to Duration") ∨
      (options.IsPaced ∧ halt = RequestSequence.instantOverflow)

/-- The selection of an order, whose shuffled indices are those of the entries. -/
def Selection.Fits (options : ReplayOptions) (count : ℕ) : Selection → Prop
  | .sequential _ => True
  | .random _ _ => options.order ≠ .sequential
  | .shuffle state =>
    options.order ≠ .sequential ∧ ∃ rounds results, state.InRound count rounds results

/-- Each draw finds an entry, and the pacers have what they need. -/
structure RequestSequence.Ready (options : ReplayOptions) (s : RequestSequence) : Prop where
  nonempty : s.requests ≠ []
  entries : ∀ r ∈ s.requests, r.Sound
  cursor : ∀ index ∈ s.timestampCursor, index < s.requests.length
  selection : s.selection.Fits options s.requests.length
  interval : ∀ pacer ∈ s.pacer,
    ∃ rate, options.rate = some rate ∧ 1 ≤ rate ∧ pacer.interval = slotInterval rate
  timestamps : s.timestampPacer.isSome →
    options.timestamps = true ∧ ∀ r ∈ s.requests, r.timestampMicros.isSome
  stages : ∀ pacer ∈ s.stagePacer,
    options.stages ≠ [] ∧ pacer.stages ≠ [] ∧ ∀ stage ∈ pacer.stages, 1 ≤ stage.2

namespace RequestSequence

variable {options : ReplayOptions} {s : RequestSequence}

theorem Ready.length_pos (h : s.Ready options) : 0 < s.requests.length :=
  List.length_pos_iff.mpr h.nonempty

theorem random_lt {random : UInt64} {count index : ℕ} (hcount : 0 < count)
    (h : Rload.bounded (splitmix64 random) count = some index) : index < count := by
  have hbounded : (ShuffleState.mk [] 0 random).bounded count =
      (firstAccepted (rejectionThreshold count) (2 ^ 64) (splitmix64 random)).map
        fun value => ((value % UInt64.ofNat count).toNat, ⟨[], 0, value⟩) := rfl
  obtain ⟨value, hvalue, rfl⟩ := Option.map_eq_some_iff.mp h
  rw [hvalue, Option.map_some] at hbounded
  exact ShuffleState.bounded_lt hbounded hcount

theorem inRound_next_lt {count rounds index : ℕ} {results : List ℕ} {state state' : ShuffleState}
    (h : state.InRound count rounds results) (hnext : state.next = some (index, state')) :
    index < count ∧ ∃ rounds, state'.InRound count rounds (index :: results) := by
  obtain ⟨rounds, hround⟩ := h.next (ShuffleState.next_of_some hnext)
  exact ⟨List.mem_range.mp (hround.inRounds.drawn_subset List.mem_cons_self), rounds, hround⟩

/-- The index of an entry, with only the cursors changed. -/
def Selects (options : ReplayOptions) (s : RequestSequence) (r : ℕ × RequestSequence) : Prop :=
  r.1 < s.requests.length ∧ r.2.requests = s.requests ∧ r.2.Ready options

theorem Ready.select (h : s.Ready options) :
    Meets options.MayHalt (Selects options s) s.select := by
  have hpos := h.length_pos
  unfold RequestSequence.select
  rw [if_neg hpos.ne']
  split
  · rename_i index hcursor
    refine ⟨h.cursor index hcursor, rfl, { h with cursor := ?_ }⟩
    rintro _ ⟨⟩
    exact Nat.mod_lt _ hpos
  · have hfits := h.selection
    split
    · exact ⟨Nat.mod_lt _ hpos, rfl, { h with selection := trivial }⟩
    · rename_i next seed hselection
      rw [hselection] at hfits
      refine (meets_orHalt (P := (· < s.requests.length)) (fun index hindex => ?_)
        fun _ => Or.inl ⟨hfits, rfl⟩).bind fun index hlt => ?_
      · exact random_lt hpos hindex
      · exact ⟨hlt, rfl, { h with selection := hfits }⟩
    · rename_i state hselection
      rw [hselection] at hfits
      obtain ⟨horder, rounds, results, hround⟩ := hfits
      refine (meets_orHalt (P := fun r => r.1 < s.requests.length ∧
          ∃ rounds, r.2.InRound s.requests.length rounds (r.1 :: results))
        (fun r hr => inRound_next_lt hround hr) fun _ => Or.inl ⟨horder, rfl⟩).bind
        fun r hr => ?_
      obtain ⟨hlt, rounds, hround⟩ := hr
      exact ⟨hlt, rfl, { h with selection := ⟨horder, rounds, _, hround⟩ }⟩

theorem Ready.reserve (h : s.Ready options) {r : EncodedRequest} (hr : r ∈ s.requests) (now : ℕ) :
    Meets options.MayHalt (fun result => result.2.Ready options) (s.reserve r now) := by
  unfold RequestSequence.reserve
  split
  · rename_i pacer hpacer
    have hinterval := h.interval pacer hpacer
    refine (meets_orHalt (P := (·.2.interval = pacer.interval)) (fun reserved hreserved => ?_)
      fun _ => ?_).bind fun reserved hkept => { h with interval := ?_ }
    · rw [Pacer.reserve_of_reserveIn hreserved]
      rfl
    · obtain ⟨rate, hrate, -⟩ := hinterval
      exact Or.inr (Or.inr ⟨Or.inl (hrate ▸ rfl), rfl⟩)
    · rintro _ ⟨⟩
      rwa [hkept]
  · rename_i pacer _ hpacer
    obtain ⟨htimestamps, hall⟩ := h.timestamps (by rw [hpacer]; rfl)
    refine (meets_orHalt (P := fun _ => True) (fun _ _ => ⟨⟩) fun hmissing => ?_).bind
      fun timestamp _ => ?_
    · have hsome := hall r hr
      rw [hmissing] at hsome
      cases hsome
    · refine (meets_orHalt (P := fun _ => True) (fun _ _ => ⟨⟩) fun _ => ?_).bind fun _ _ => ?_
      · split
        · exact Or.inr (Or.inr ⟨Or.inr (Or.inl htimestamps), rfl⟩)
        · exact Or.inr (Or.inl ⟨htimestamps, rfl⟩)
      · exact { h with timestamps := fun _ => ⟨htimestamps, hall⟩ }
  · rename_i pacer _ _ hpacer
    have hstages := h.stages pacer hpacer
    refine (meets_orHalt (P := (·.2.stages = pacer.stages)) (fun reserved hreserved => ?_)
      fun _ => ?_).bind fun reserved hkept => { h with stages := ?_ }
    · rw [StagePacer.reserve_of_reserveIn hreserved]
      rfl
    · exact Or.inr (Or.inr ⟨Or.inr (Or.inr hstages.1), rfl⟩)
    · rintro _ ⟨⟩
      rwa [hkept]
  · exact h

/-- A draw returns a request with its URI, or halts as allowed. -/
theorem Ready.next (h : s.Ready options) (now : ℕ) :
    Meets options.MayHalt (fun r => IsText r.1.request r.1.uri ∧ r.2.Ready options)
      (s.next now) := by
  refine h.select.bind fun r hr => ?_
  obtain ⟨hlt, hrequests, hready⟩ := hr
  refine (meets_orHalt (P := (· ∈ r.2.requests)) (fun request hrequest => ?_)
    fun hnone => ?_).bind fun request hmem => ?_
  · exact List.mem_of_getElem? hrequest
  · rw [hrequests, List.getElem?_eq_none_iff] at hnone
    omega
  · have hsound := hready.entries request hmem
    refine (hready.reserve hmem now).bind fun result hresult => ?_
    refine (meets_orHalt (P := fun _ => True) (fun _ _ => ⟨⟩) fun hnone => ?_).bind fun _ _ => ?_
    · have hsome := hsound.method
      rw [hnone] at hsome
      cases hsome
    · exact ⟨hsound.text, hresult⟩

theorem Ready.reaches (h : s.Ready options) {s' : RequestSequence} (hreach : s.Reaches s') :
    s'.Ready options := by
  induction hreach with
  | refl => exact h
  | tail _ hnext ih =>
    obtain ⟨time, drawn, hnext⟩ := hnext
    have hmeets := ih.next time
    rw [hnext] at hmeets
    exact hmeets.2

theorem Ready.sound (h : s.Ready options) : s.Sound options.MayHalt := by
  intro s' hreach now
  have hmeets := (h.reaches hreach).next now
  constructor
  · intro drawn s'' hnext
    rw [hnext] at hmeets
    exact hmeets.1
  · intro halt hnext
    rw [hnext] at hmeets
    exact hmeets

theorem ready_new {requests : List EncodedRequest} {seed : UInt64}
    (hnonempty : requests ≠ []) (hentries : ∀ r ∈ requests, r.Sound)
    (h : RequestSequence.new requests options.order seed = some s) : s.Ready options := by
  obtain ⟨selection, hselection, rfl⟩ := Option.map_eq_some_iff.mp h
  refine ⟨hnonempty, hentries, nofun, ?_, nofun, nofun, nofun⟩
  cases horder : options.order with
  | sequential =>
    rw [horder] at hselection
    cases hselection
    exact ⟨⟩
  | random =>
    rw [horder] at hselection
    cases hselection
    intro hsequential
    cases horder.symm.trans hsequential
  | shuffle =>
    rw [horder] at hselection
    obtain ⟨state, hstate, rfl⟩ := Option.map_eq_some_iff.mp hselection
    have hround := ShuffleState.inRound_of_isNew (ShuffleState.isNew_of_reshuffle hstate)
    refine ⟨fun hsequential => ?_, 0, [], hround⟩
    cases horder.symm.trans hsequential

theorem Ready.withRate (h : s.Ready options) (hrate : options.rate ≠ some 0) (started : ℕ) :
    (s.withRate options.rate started).Ready options := by
  refine { h with interval := fun pacer hpacer => ?_ }
  obtain ⟨count, hcount, rfl⟩ := Option.map_eq_some_iff.mp hpacer
  refine ⟨count, hcount, Nat.pos_of_ne_zero fun hzero => hrate ?_, rfl⟩
  rw [hcount, hzero]

theorem StagePacer.rates_boundaries {stages : List ReplayStage}
    (h : ∀ stage ∈ stages, 1 ≤ stage.rate) (boundary : ℕ) :
    ∀ stage ∈ StagePacer.boundaries boundary stages, 1 ≤ stage.2 := by
  induction stages generalizing boundary with
  | nil => exact List.forall_mem_nil _
  | cons stage stages ih =>
    obtain ⟨hrate, hrest⟩ := List.forall_mem_cons.mp h
    exact List.forall_mem_cons.mpr ⟨hrate, ih hrest _⟩

theorem Ready.withStages (h : s.Ready options)
    (hstages : ∀ stage ∈ options.stages, 1 ≤ stage.rate) :
    (s.withStages options.stages).Ready options := by
  unfold RequestSequence.withStages
  split
  · exact h
  · rename_i hnonempty
    refine { h with stages := ?_ }
    rintro _ ⟨⟩
    refine ⟨hnonempty, ?_, StagePacer.rates_boundaries hstages 0⟩
    obtain ⟨stage, stages, hcons⟩ := List.exists_cons_of_ne_nil hnonempty
    rw [hcons]
    exact List.cons_ne_nil _ _

theorem Ready.withTimestamps (h : s.Ready options) (htimestamps : options.timestamps = true)
    (hall : ∀ r ∈ s.requests, r.timestampMicros.isSome) (speed : ℚ) (started : ℕ) :
    (s.withTimestamps speed started).Ready options := by
  refine { h with cursor := ?_, timestamps := fun _ => ⟨htimestamps, hall⟩ }
  rintro _ ⟨⟩
  exact h.length_pos

end RequestSequence

/-- Stages that pass their check have rates. -/
theorem rates_of_validateStages {stages : List ReplayStage} (h : validateStages stages = .ok ()) :
    ∀ stage ∈ stages, 1 ≤ stage.rate := by
  intro stage hmem
  unfold validateStages at h
  split at h
  · cases h
  · rename_i hany
    by_contra hzero
    have hrate : stage.rate = 0 := by omega
    exact hany (List.any_eq_true.mpr ⟨stage, hmem, by simp [hrate]⟩)

theorem stages_of_validate {options : ReplayOptions} {rounds : Option ℕ} {u : Unit}
    (h : validateReplayOptions options rounds = .ok u) :
    validateStages options.stages = .ok () := by
  unfold validateReplayOptions at h
  cases hstages : validateStages options.stages with
  | ok => rfl
  | error e =>
    rw [hstages] at h
    split_ifs at h

end Rload
