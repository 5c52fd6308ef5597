import Rload.DrawLedger
import Rload.ReplayFilter
import Rload.RequestRoundTrip

/-!
# Filtered replays

Whatever is drawn in a replay is an entry of the filtered requests, in every order.
-/

namespace Rload
open TextScanning

namespace RequestSequence

variable {s s' : RequestSequence} {issued : List Drawn}

/-- Draws leave the entries as they are and return entries. -/
theorem Issues.entries (h : s.Issues issued s') :
    s'.requests = s.requests ∧ ∀ drawn ∈ issued, ∃ entry, s.requests[drawn.entry]? = some entry ∧
      drawn.request = entry.bytes ∧
      Method.all[(entry.methodUriStart >>> 29).toNat]? = some drawn.method := by
  induction h with
  | refl => exact ⟨rfl, fun drawn h => absurd h List.not_mem_nil⟩
  | draw _ hnext ih =>
    obtain ⟨hsame, entry, hentry, hrequest, hmethod, -⟩ := next_entry hnext
    rw [ih.1] at hsame hentry
    exact ⟨hsame, List.forall_mem_cons.mpr ⟨⟨entry, hentry, hrequest, hmethod⟩, ih.2⟩⟩

theorem new_requests {requests : List EncodedRequest} {order : ReplayOrder} {seed : UInt64}
    (h : new requests order seed = some s) : s.requests = requests := by
  unfold new at h
  rw [Option.map_eq_some_iff] at h
  obtain ⟨selection, -, rfl⟩ := h
  rfl

theorem withStages_requests (s : RequestSequence) (stages : List ReplayStage) :
    (s.withStages stages).requests = s.requests := by
  rw [withStages]
  split <;> rfl

end RequestSequence

theorem prepareReplay_requests {config : RunConfig} {requests : List EncodedRequest}
    {options : ReplayOptions} {rounds : Option ℕ} {filtered : ℕ} {seed : UInt64} {now : ℕ}
    {prepared : PreparedRun}
    (h : prepareReplay config requests options rounds filtered seed now = .ok (some prepared)) :
    prepared.sequence.requests = requests := by
  unfold prepareReplay at h
  split at h
  · cases h
  · cases h
  · cases h
  · rename_i config' _ _ _
    injection h with h
    rw [Option.map_eq_some_iff] at h
    obtain ⟨sequence, hnew, rfl⟩ := h
    have hrequests := RequestSequence.new_requests hnew
    simp only
    split
    · exact (RequestSequence.withStages_requests _ _).trans hrequests
    · exact (RequestSequence.withStages_requests _ _).trans hrequests

namespace RunInput

variable (input : RunInput)

/-- In every run of a replay that is filtered, in every order of its entries, a request that is
on a connection or may be drawn next is one that the filter is for. -/
theorem filtered_replay {requests filtered : List ReplayRequest} {filter : ReplayFilter}
    {count : ℕ} (hfilter : ReplayFilter.apply requests filter = .ok (filtered, count))
    {t : Target} {config : RunConfig} {options : ReplayOptions} {rounds : Option ℕ}
    {seed : UInt64} {now : ℕ}
    (hprepared : prepareReplay config (filtered.map t.encodedReplayRequest) options rounds count
      seed now = .ok (some input.prepared)) (schedule : List ℕ) :
    (∀ w ∈ (input.after schedule).components, ∀ c ∈ w.connections, ∃ r ∈ requests,
      filter.Allows r ∧ c.method = r.method ∧ c.request = t.replayRequest r) ∧
    ∀ time drawn sequence, (input.after schedule).shared.next time = .ok (drawn, sequence) →
      ∃ r ∈ requests, filter.Allows r ∧ drawn.method = r.method ∧
        drawn.request = t.replayRequest r := by
  obtain ⟨issued, books, lost, hledger⟩ := input.exists_ledger Connection.ledger_drawn schedule
  have hentries : ∀ {drawn : Drawn} {entry : EncodedRequest},
      input.prepared.sequence.requests[drawn.entry]? = some entry →
      drawn.request = entry.bytes →
      Method.all[(entry.methodUriStart >>> 29).toNat]? = some drawn.method →
      ∃ r ∈ requests, filter.Allows r ∧ drawn.method = r.method ∧
        drawn.request = t.replayRequest r := by
    intro drawn entry hentry hrequest hmethod
    rw [prepareReplay_requests hprepared, List.getElem?_map, Option.map_eq_some_iff] at hentry
    obtain ⟨r, hr, rfl⟩ := hentry
    obtain ⟨hindex, -, -⟩ := methodUriStart_method r.method
    have hmem := List.mem_of_getElem? hr
    rw [(ReplayFilter.apply_eq_ok hfilter).1, List.mem_filter] at hmem
    exact ⟨r, hmem.1, ReplayFilter.allows_of_admits hmem.2,
      Option.some.inj (hmethod.symm.trans hindex), hrequest⟩
  constructor
  · intro w hw c hc
    obtain ⟨book, hbook, hissued⟩ := hledger.mem_issued hw hc
    obtain ⟨entry, hentry, hrequest, hmethod⟩ :=
      hledger.issues.entries.2 c.drawn (hissued _ (List.mem_of_head? hbook))
    exact hentries hentry hrequest hmethod
  · intro time drawn sequence hnext
    obtain ⟨-, entry, hentry, hrequest, hmethod, -⟩ := RequestSequence.next_entry hnext
    rw [hledger.issues.entries.1] at hentry
    exact hentries hentry hrequest hmethod

def hostTarget : Target := ⟨[], ['h'], ['/'], none⟩

/-- Only gets below the root pass. -/
def getsBelowRoot : ReplayFilter := ⟨[.get], [['/', '*']]⟩

def twoRequests : List ReplayRequest :=
  [⟨.post, ['/', 'a'], none, none⟩, ⟨.get, ['/', 'b'], none, none⟩]

/-- A run of the request that passes. -/
def filteredRun : RunInput :=
  let entry := hostTarget.encodedReplayRequest ⟨.get, ['/', 'b'], none, none⟩
  let run := plain (.requests 2) 1 (.inOrder [entry]) none fun _ => {}
  { run with prepared := { run.prepared with filteredReplayEntries := 1 } }

theorem getsBelowRoot_apply : ReplayFilter.apply twoRequests getsBelowRoot =
    .ok ([⟨.get, ['/', 'b'], none, none⟩], 1) := by
  have hmatches : ReplayFilter.globMatches [47, 42] [47, 98] = true := by
    simp [ReplayFilter.globMatches, ReplayFilter.globLoop, ReplayFilter.GlobState.advance,
      ReplayFilter.GlobState.takeStar, ReplayFilter.GlobState.retry, ReplayFilter.starByte]
  have hpattern : encodeUtf8 ['/', '*'] = [47, 42] := rfl
  have hpath : encodeUtf8 ['/', 'b'] = [47, 98] := rfl
  have hvalid : getsBelowRoot.validate = .ok () := by decide
  have hpassing : twoRequests.filter getsBelowRoot.admits =
      [⟨.get, ['/', 'b'], none, none⟩] := by
    simp [twoRequests, getsBelowRoot, ReplayFilter.admits, hpattern, hpath, hmatches]
  rw [ReplayFilter.apply, hvalid]
  simp only [hpassing]
  rfl

theorem filtered_replay_sample :
    (filteredRun.after [0, 0, 0]).components.map (·.connections.map (·.method)) = [[.get]] ∧
      ∀ w ∈ (filteredRun.after [0, 0, 0]).components, ∀ c ∈ w.connections, ∃ r ∈ twoRequests,
        getsBelowRoot.Allows r ∧ c.method = r.method ∧ c.request = hostTarget.replayRequest r := by
  have hprepared : prepareReplay filteredRun.prepared.config
      ([⟨.get, ['/', 'b'], none, none⟩].map hostTarget.encodedReplayRequest) {} none 1 0 0 =
        .ok (some filteredRun.prepared) := rfl
  constructor
  · decide +kernel
  · exact (filtered_replay filteredRun getsBelowRoot_apply hprepared [0, 0, 0]).1

end RunInput

end Rload
