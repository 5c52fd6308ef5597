import Rload.RunInvariants
import Mathlib.Data.Int.CardIntervalMod

/-!
# The split of a run's limit

`connection_limits` splits a number of requests over the connections without loss, each
connection gets at least one, and the workers get all the limits.
-/

namespace Rload

/-- The number of requests of a limit. -/
def ConnectionLimit.promised (limit : ConnectionLimit) : ℕ := limit.requests?.getD 0

def promisedSum (limits : List ConnectionLimit) : ℕ := (limits.map (·.promised)).sum

section Workers

theorem promisedSum_perm {limits limits' : List ConnectionLimit} (h : limits.Perm limits') :
    promisedSum limits = promisedSum limits' := (h.map _).sum_eq

theorem promisedSum_flatten (workers : List (List ConnectionLimit)) :
    (workers.map promisedSum).sum = promisedSum workers.flatten := by
  induction workers with
  | nil => rfl
  | cons worker workers ih =>
    rw [List.map_cons, List.sum_cons, ih, List.flatten_cons, promisedSum, promisedSum,
      promisedSum, List.map_append, List.sum_append]

theorem flatten_modify_perm (workers : List (List ConnectionLimit)) {index : ℕ}
    (h : index < workers.length) (limit : ConnectionLimit) :
    (workers.modify index (· ++ [limit])).flatten.Perm (limit :: workers.flatten) := by
  induction workers generalizing index with
  | nil => cases h
  | cons worker workers ih =>
    cases index with
    | zero =>
      rw [List.modify_zero_cons, List.flatten_cons, List.flatten_cons, List.append_assoc]
      exact List.perm_middle
    | succ index =>
      have hrest := ih (Nat.lt_of_succ_lt_succ h)
      rw [List.modify_succ_cons, List.flatten_cons, List.flatten_cons]
      exact (hrest.append_left worker).trans List.perm_middle

variable (threadCount : ℕ)

def deal (workers : List (List ConnectionLimit)) (limits : List (ConnectionLimit × ℕ)) :
    List (List ConnectionLimit) :=
  limits.foldl (fun workers (limit, index) =>
    workers.modify (index % threadCount) (· ++ [limit])) workers

theorem deal_length (workers : List (List ConnectionLimit)) (limits : List (ConnectionLimit × ℕ)) :
    (deal threadCount workers limits).length = workers.length := by
  induction limits generalizing workers with
  | nil => rfl
  | cons limit limits ih =>
    have h := ih (workers.modify (limit.2 % threadCount) (· ++ [limit.1]))
    rw [List.length_modify] at h
    exact h

theorem deal_concat (workers : List (List ConnectionLimit)) (limits : List (ConnectionLimit × ℕ))
    (limit : ConnectionLimit) (index : ℕ) :
    deal threadCount workers (limits ++ [(limit, index)]) =
      (deal threadCount workers limits).modify (index % threadCount) (· ++ [limit]) := by
  rw [deal, List.foldl_append]
  rfl

theorem workerLimits_eq (limits : List ConnectionLimit) :
    workerLimits threadCount limits =
      deal threadCount (List.replicate threadCount []) limits.zipIdx := rfl

theorem length_workerLimits (limits : List ConnectionLimit) :
    (workerLimits threadCount limits).length = threadCount := by
  rw [workerLimits_eq, deal_length, List.length_replicate]

/-- One more limit goes to the next worker. -/
theorem workerLimits_concat (limits : List ConnectionLimit) (limit : ConnectionLimit) :
    workerLimits threadCount (limits ++ [limit]) =
      (workerLimits threadCount limits).modify (limits.length % threadCount) (· ++ [limit]) := by
  rw [workerLimits_eq, List.zipIdx_append, List.zipIdx_singleton, deal_concat, ← workerLimits_eq,
    Nat.zero_add]

theorem flatten_workerLimits_perm (hpos : 0 < threadCount) (limits : List ConnectionLimit) :
    (workerLimits threadCount limits).flatten.Perm limits := by
  induction limits using List.reverseRecOn with
  | nil =>
    rw [workerLimits_eq]
    simp [deal]
  | append_singleton limits limit ih =>
    have hindex : limits.length % threadCount < (workerLimits threadCount limits).length := by
      rw [length_workerLimits]
      exact Nat.mod_lt _ hpos
    rw [workerLimits_concat]
    exact (flatten_modify_perm _ hindex limit).trans
      ((ih.cons limit).trans (List.perm_append_singleton limit limits).symm)

theorem sum_workerLimits (hpos : 0 < threadCount) (limits : List ConnectionLimit) :
    ((workerLimits threadCount limits).map promisedSum).sum = promisedSum limits := by
  rw [promisedSum_flatten]
  exact promisedSum_perm (flatten_workerLimits_perm threadCount hpos limits)

theorem mem_workerLimits {limits worker : List ConnectionLimit} {limit : ConnectionLimit}
    (h : worker ∈ workerLimits threadCount limits) (hlimit : limit ∈ worker) :
    limit ∈ limits := by
  have hpos : 0 < threadCount := by
    have hlength := List.length_pos_of_mem h
    rwa [length_workerLimits] at hlength
  have hperm := flatten_workerLimits_perm threadCount hpos limits
  exact hperm.mem_iff.mp (List.mem_flatten.mpr ⟨worker, h, hlimit⟩)

/-- The limits at the positions that go to a worker. -/
def share (worker : ℕ) (limits : List ConnectionLimit) : List ConnectionLimit :=
  (limits.zipIdx.filter fun (_, index) => index % threadCount = worker).map Prod.fst

theorem share_concat (worker : ℕ) (limits : List ConnectionLimit) (limit : ConnectionLimit) :
    share threadCount worker (limits ++ [limit]) =
      if limits.length % threadCount = worker then share threadCount worker limits ++ [limit]
      else share threadCount worker limits := by
  rw [share, List.zipIdx_append, List.zipIdx_singleton, Nat.zero_add, List.filter_append,
    List.map_append, ← share]
  by_cases h : limits.length % threadCount = worker
  · rw [if_pos h, List.filter_cons_of_pos (by simpa using h)]
    rfl
  · rw [if_neg h, List.filter_cons_of_neg (by simpa using h)]
    exact List.append_nil _

theorem workerLimits_eq_shares (limits : List ConnectionLimit) :
    workerLimits threadCount limits =
      (List.range threadCount).map fun worker => share threadCount worker limits := by
  induction limits using List.reverseRecOn with
  | nil =>
    rw [workerLimits_eq]
    simp [deal, share, List.map_const']
  | append_singleton limits limit ih =>
    rw [workerLimits_concat, ih]
    apply List.ext_getElem
    · simp
    · intro worker _ _
      rw [List.getElem_modify]
      simp only [List.getElem_map, List.getElem_range, share_concat]

theorem length_share (worker : ℕ) (limits : List ConnectionLimit) :
    (share threadCount worker limits).length =
      Nat.count (· % threadCount = worker) limits.length := by
  induction limits using List.reverseRecOn with
  | nil => simp [share]
  | append_singleton limits limit ih =>
    rw [share_concat, List.length_append, List.length_singleton, Nat.count_succ, ← ih]
    split
    · rw [List.length_append, List.length_singleton]
    · rfl

/-- A worker gets one more limit than the last ones if the limits do not go up evenly. -/
theorem length_share_eq (hpos : 0 < threadCount) {worker : ℕ} (hworker : worker < threadCount)
    (limits : List ConnectionLimit) :
    (share threadCount worker limits).length = limits.length / threadCount +
      if worker < limits.length % threadCount then 1 else 0 := by
  have hcount := Nat.count_modEq_card limits.length hpos worker
  simp only [Nat.ModEq, Nat.mod_eq_of_lt hworker] at hcount
  rw [length_share, hcount]

theorem exists_length_worker (hpos : 0 < threadCount) {limits worker : List ConnectionLimit}
    (h : worker ∈ workerLimits threadCount limits) :
    ∃ index < threadCount, worker.length = limits.length / threadCount +
      if index < limits.length % threadCount then 1 else 0 := by
  rw [workerLimits_eq_shares, List.mem_map] at h
  obtain ⟨index, hindex, rfl⟩ := h
  have hlt := List.mem_range.mp hindex
  exact ⟨index, hlt, length_share_eq threadCount hpos hlt limits⟩

end Workers

/-- The first `extra` of `count` connections get one more. -/
theorem sum_shares (base extra count : ℕ) :
    ((List.range count).map fun index => base + if index < extra then 1 else 0).sum =
      count * base + min extra count := by
  induction count with
  | zero => simp
  | succ count ih =>
    rw [List.range_succ, List.map_append, List.sum_append, ih]
    simp only [List.map_cons, List.map_nil, List.sum_cons, List.sum_nil, Nat.succ_mul]
    split
    · omega
    · omega

section Shares

variable {config : RunConfig} {n : ℕ}

theorem connectionLimits_requests (hlimit : config.limit = .requests n) (started : ℕ) :
    (connectionLimits config started).2.1 =
      (List.range (min config.connections n)).map fun index =>
        .requests (n / min config.connections n +
          if index < n % min config.connections n then 1 else 0) := by
  rw [connectionLimits, hlimit]

theorem connectionLimits_count (hlimit : config.limit = .requests n) (started : ℕ) :
    (connectionLimits config started).1 = min config.connections n := by
  rw [connectionLimits, hlimit]

theorem promisedSum_connectionLimits (hlimit : config.limit = .requests n)
    (hconnections : 0 < config.connections) (hn : 0 < n) (started : ℕ) :
    promisedSum (connectionLimits config started).2.1 = n := by
  have hpos : 0 < min config.connections n := lt_min hconnections hn
  have hle := (Nat.mod_lt n hpos).le
  have hsum := sum_shares (n / min config.connections n) (n % min config.connections n)
    (min config.connections n)
  rw [min_eq_left hle, Nat.div_add_mod] at hsum
  rw [connectionLimits_requests hlimit, promisedSum, List.map_map]
  exact hsum

theorem connectionLimits_pos (hlimit : config.limit = .requests n)
    (hconnections : 0 < config.connections) (hn : 0 < n) (started : ℕ) :
    ∀ limit ∈ (connectionLimits config started).2.1, ∃ count, limit = .requests count ∧
      0 < count := by
  intro limit hmem
  rw [connectionLimits_requests hlimit, List.mem_map] at hmem
  obtain ⟨index, -, rfl⟩ := hmem
  have hbase : 0 < n / min config.connections n :=
    Nat.div_pos (min_le_right _ _) (lt_min hconnections hn)
  exact ⟨_, rfl, Nat.add_pos_left hbase _⟩

theorem length_connectionLimits (hlimit : config.limit = .requests n) (started : ℕ) :
    (connectionLimits config started).2.1.length = min config.connections n := by
  rw [connectionLimits_requests hlimit, List.length_map, List.length_range]

/-- The quotient bounds every share from below, and one more from above. -/
theorem connectionLimits_bounds (hlimit : config.limit = .requests n) {started k : ℕ}
    (h : ConnectionLimit.requests k ∈ (connectionLimits config started).2.1) :
    n / min config.connections n ≤ k ∧ k ≤ n / min config.connections n + 1 := by
  rw [connectionLimits_requests hlimit, List.mem_map] at h
  obtain ⟨index, -, heq⟩ := h
  cases heq
  constructor
  · exact Nat.le_add_right _ _
  · split
    · exact le_refl _
    · exact Nat.le_succ _

end Shares

theorem RunConfig.pos_of_validate {config : RunConfig} (h : config.validate = .ok ()) :
    0 < config.connections ∧ 0 < config.threads ∧ ∀ n, config.limit = .requests n → 0 < n := by
  unfold validate at h
  split at h
  · cases h
  · rename_i hconnections
    split at h
    · cases h
    · rename_i hthreads
      split at h
      · cases h
      · refine ⟨Nat.pos_of_ne_zero hconnections, Nat.pos_of_ne_zero hthreads, ?_⟩
        intro n hn
        rw [hn] at h
        cases n with
        | zero => cases h
        | succ n => exact Nat.succ_pos n

/-- The requests are spread evenly over the connections, and the connections over the workers. -/
theorem limits_distributed {config : RunConfig} {n : ℕ} (hvalid : config.validate = .ok ())
    (hlimit : config.limit = .requests n) (started : ℕ) :
    let count := (connectionLimits config started).1
    let limits := (connectionLimits config started).2.1
    let threadCount := min config.threads count
    let workers := workerLimits threadCount limits
    (0 < count ∧ count = min config.connections n ∧ limits.length = count ∧
      (∀ limit ∈ limits, ∃ k, limit = .requests k ∧ 1 ≤ k) ∧
      (∀ k k', .requests k ∈ limits → .requests k' ∈ limits → k ≤ k' + 1) ∧
      promisedSum limits = n) ∧
    (0 < threadCount ∧
      workers = (List.range threadCount).map (share threadCount · limits) ∧
      workers.flatten.Perm limits ∧ (∀ worker ∈ workers, worker ≠ []) ∧
      ∀ worker ∈ workers, ∀ worker' ∈ workers, worker.length ≤ worker'.length + 1) := by
  obtain ⟨hconnections, hthreads, hn⟩ := RunConfig.pos_of_validate hvalid
  have hn := hn n hlimit
  intro count limits threadCount workers
  have hcount : count = min config.connections n := connectionLimits_count hlimit started
  have hlength : limits.length = count := (length_connectionLimits hlimit started).trans hcount.symm
  have hcount_pos : 0 < count := by
    rw [hcount]
    exact lt_min hconnections hn
  have hthread_pos : 0 < threadCount := lt_min hthreads hcount_pos
  refine ⟨⟨hcount_pos, hcount, hlength, connectionLimits_pos hlimit hconnections hn started, ?_,
    promisedSum_connectionLimits hlimit hconnections hn started⟩, hthread_pos,
    workerLimits_eq_shares threadCount limits,
    flatten_workerLimits_perm threadCount hthread_pos limits, ?_, ?_⟩
  · intro k k' hk hk'
    obtain ⟨-, hle⟩ := connectionLimits_bounds hlimit hk
    obtain ⟨hge, -⟩ := connectionLimits_bounds hlimit hk'
    omega
  · intro worker hworker hnil
    obtain ⟨index, -, heq⟩ := exists_length_worker threadCount hthread_pos hworker
    have hquotient : 0 < limits.length / threadCount := by
      rw [hlength]
      exact Nat.div_pos (min_le_right _ _) hthread_pos
    rw [hnil, List.length_nil] at heq
    omega
  · intro worker hworker worker' hworker'
    obtain ⟨index, -, heq⟩ := exists_length_worker threadCount hthread_pos hworker
    obtain ⟨index', -, heq'⟩ := exists_length_worker threadCount hthread_pos hworker'
    have hle : (if index < limits.length % threadCount then 1 else 0) ≤ 1 := by
      split
      · exact le_refl 1
      · exact Nat.zero_le 1
    omega

/-- Seven requests over three connections and two workers. -/
theorem limits_distributed_seven :
    promisedSum (connectionLimits ⟨.requests 7, 3, 2, 0⟩ 0).2.1 = 7 :=
  (limits_distributed (n := 7) rfl rfl 0).1.2.2.2.2.2

namespace RunInput

variable {input : RunInput} {n : ℕ}

theorem promised_limits (hvalid : input.prepared.config.validate = .ok ())
    (hlimit : input.prepared.config.limit = .requests n) :
    (input.limits.map promisedSum).sum = n := by
  obtain ⟨hconnections, hthreads, hn⟩ := RunConfig.pos_of_validate hvalid
  have hcount := connectionLimits_count hlimit input.started
  have hpos : 0 < min input.prepared.config.threads
      (connectionLimits input.prepared.config input.started).1 := by
    rw [hcount]
    exact lt_min hthreads (lt_min hconnections (hn n hlimit))
  have hsum := sum_workerLimits _ hpos (connectionLimits input.prepared.config input.started).2.1
  rw [promisedSum_connectionLimits hlimit hconnections (hn n hlimit)] at hsum
  exact hsum

theorem limits_pos (hvalid : input.prepared.config.validate = .ok ())
    (hlimit : input.prepared.config.limit = .requests n) :
    ∀ limits ∈ input.limits, ∀ limit ∈ limits, ∃ count, limit = .requests count ∧ 0 < count := by
  obtain ⟨hconnections, hthreads, hn⟩ := RunConfig.pos_of_validate hvalid
  intro limits hlimits limit hmem
  exact connectionLimits_pos hlimit hconnections (hn n hlimit) input.started limit
    (mem_workerLimits _ hlimits hmem)

end RunInput

end Rload
