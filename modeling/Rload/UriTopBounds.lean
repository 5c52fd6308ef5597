import Rload.UriTop

/-!
# What the table of frequent URIs promises

A table stands for the estimate that gives every URI outside it the minimum count. `record`
and `merge` are pointwise additions of estimates followed by a truncation, whence the bounds
of a table built by any tree of the two operations.
-/

namespace Rload.UriTop
open UriStatistic UpperEstimates

def keys (t : UriTop) : Finset Uri := (uris t.entries).toFinset

def estimate (t : UriTop) : Estimate Uri where
  upper u := ((t.find u).map (·.estimatedRequests)).getD t.minimumCount
  error u := ((t.find u).map (·.maximumError)).getD t.minimumCount

@[simp] theorem mem_keys {t : UriTop} {u : Uri} : u ∈ t.keys ↔ u ∈ uris t.entries :=
  List.mem_toFinset

theorem card_keys (t : UriTop) : t.keys.card = t.entries.length := by
  rw [keys, List.toFinset_card_of_nodup t.distinct, uris, List.length_map]

theorem card_keys_le (t : UriTop) : t.keys.card ≤ t.capacity :=
  t.card_keys.trans_le t.bounded

theorem eq_of_uri_eq {t : UriTop} {x y : UriStatistic} (hx : x ∈ t.entries)
    (hy : y ∈ t.entries) (h : x.uri = y.uri) : x = y :=
  List.inj_on_of_nodup_map t.distinct hx hy h

theorem find_of_mem {t : UriTop} {x : UriStatistic} (hx : x ∈ t.entries) :
    t.find x.uri = some x := by
  have hsome := find_isSome_iff.mpr (List.mem_map_of_mem hx : x.uri ∈ uris t.entries)
  obtain ⟨y, hy⟩ := Option.isSome_iff_exists.mp hsome
  have huri : y.uri = x.uri := by simpa using List.find?_some hy
  rw [hy, eq_of_uri_eq (List.mem_of_find?_eq_some hy) hx huri]

theorem find_of_not_mem {t : UriTop} {u : Uri} (hu : u ∉ uris t.entries) :
    t.find u = none := by
  rw [← Option.not_isSome_iff_eq_none, find_isSome_iff]
  exact hu

theorem upper_of_mem {t : UriTop} {x : UriStatistic} (hx : x ∈ t.entries) :
    t.estimate.upper x.uri = x.estimatedRequests := by simp [estimate, find_of_mem hx]

theorem error_of_mem {t : UriTop} {x : UriStatistic} (hx : x ∈ t.entries) :
    t.estimate.error x.uri = x.maximumError := by simp [estimate, find_of_mem hx]

theorem upper_of_not_mem {t : UriTop} {u : Uri} (hu : u ∉ uris t.entries) :
    t.estimate.upper u = t.minimumCount := by simp [estimate, find_of_not_mem hu]

theorem error_of_not_mem {t : UriTop} {u : Uri} (hu : u ∉ uris t.entries) :
    t.estimate.error u = t.minimumCount := by simp [estimate, find_of_not_mem hu]

theorem minimumCount_of_room {t : UriTop} (h : t.entries.length < t.capacity) :
    t.minimumCount = 0 := if_pos h

theorem minimumCount_of_full {t : UriTop} (h : ¬ t.entries.length < t.capacity) :
    ∃ x ∈ t.entries, x.estimatedRequests = t.minimumCount := by
  have hpos := t.capacity_pos
  have hne : t.entries.map (·.estimatedRequests) ≠ [] := by
    intro he
    have : t.entries = [] := List.map_eq_nil_iff.mp he
    rw [this] at h
    exact h hpos
  obtain ⟨m, hm⟩ := Option.isSome_iff_exists.mp (List.isSome_min?_of_ne_nil hne)
  obtain ⟨x, hx, hxm⟩ := List.mem_map.mp (List.min?_mem hm)
  exact ⟨x, hx, by simp [minimumCount, h, hm, hxm]⟩

theorem minimumCount_le {t : UriTop} {x : UriStatistic} (hx : x ∈ t.entries) :
    t.minimumCount ≤ x.estimatedRequests := by
  unfold minimumCount
  split
  · exact Nat.zero_le _
  · have hmem : x.estimatedRequests ∈ t.entries.map (·.estimatedRequests) :=
      List.mem_map_of_mem hx
    cases hm : (t.entries.map (·.estimatedRequests)).min? with
    | none => simp
    | some m => exact (List.le_min?_iff hm).mp le_rfl _ hmem

/-- A value that every entry of a full table reaches is at most the minimum count. -/
theorem le_minimumCount {t : UriTop} {m : ℕ} (h : t.entries.length = t.capacity)
    (hm : ∀ x ∈ t.entries, m ≤ x.estimatedRequests) : m ≤ t.minimumCount := by
  obtain ⟨x, hx, hxm⟩ := minimumCount_of_full (t := t) (by omega)
  exact hxm ▸ hm x hx

theorem minimumCount_le_upper (t : UriTop) (u : Uri) : t.minimumCount ≤ t.estimate.upper u := by
  by_cases hu : u ∈ uris t.entries
  · obtain ⟨x, hx, rfl⟩ := List.mem_map.mp hu
    rw [upper_of_mem hx]
    exact minimumCount_le hx
  · exact (upper_of_not_mem hu).ge

/-- The entries of the table carry the values of `e`, and every URI outside it has an
estimate that the minimum count covers. -/
structure Represents (t : UriTop) (e : Estimate Uri) : Prop where
  upper : ∀ x ∈ t.entries, x.estimatedRequests = e.upper x.uri
  error : ∀ x ∈ t.entries, x.maximumError = e.error x.uri
  dropped : ∀ u, u ∉ uris t.entries → e.upper u ≤ t.minimumCount

theorem Represents.estimate_eq {t : UriTop} {e : Estimate Uri} (h : t.Represents e) :
    t.estimate = e.truncate t.keys t.minimumCount := by
  have hval : ∀ u, t.estimate.upper u = (e.truncate t.keys t.minimumCount).upper u ∧
      t.estimate.error u = (e.truncate t.keys t.minimumCount).error u := by
    intro u
    by_cases hu : u ∈ uris t.entries
    · obtain ⟨x, hx, rfl⟩ := List.mem_map.mp hu
      simp [Estimate.truncate, mem_keys, hu, upper_of_mem hx, error_of_mem hx, h.upper x hx,
        h.error x hx]
    · simp [Estimate.truncate, mem_keys, hu, upper_of_not_mem, error_of_not_mem]
  exact congrArg₂ Estimate.mk (funext fun u => (hval u).1) (funext fun u => (hval u).2)

/-- The minimum count is either zero or reached by every entry of a full table. -/
theorem minimumCount_cases {t : UriTop} {e : Estimate Uri} (h : t.Represents e) :
    t.minimumCount = 0 ∨
      t.keys.card = t.capacity ∧ ∀ u ∈ t.keys, t.minimumCount ≤ e.upper u := by
  by_cases hroom : t.entries.length < t.capacity
  · exact Or.inl (minimumCount_of_room hroom)
  · refine Or.inr ⟨?_, fun u hu => ?_⟩
    · rw [card_keys]
      have := t.bounded
      omega
    · obtain ⟨x, hx, rfl⟩ := List.mem_map.mp (mem_keys.mp hu)
      exact h.upper x hx ▸ minimumCount_le hx

theorem Represents.sound {t : UriTop} {e : Estimate Uri} (h : t.Represents e) {k : ℕ}
    (hk : t.capacity = k) {count : Uri → ℕ} {total : ℕ} (he : e.Sound k count total) :
    t.estimate.Sound k count total := by
  subst hk
  rw [h.estimate_eq]
  exact he.truncate t.card_keys_le (fun u hu => h.dropped u (by simpa using hu))
    (minimumCount_cases h)

theorem represents_estimate (t : UriTop) : t.Represents t.estimate where
  upper _ hx := (upper_of_mem hx).symm
  error _ hx := (error_of_mem hx).symm
  dropped _ hu := (upper_of_not_mem hu).le

theorem minimumCount_updateFirst_le {t t' : UriTop} (hcap : t'.capacity = t.capacity)
    (hlen : t'.entries.length = t.entries.length)
    (h : ∀ x ∈ t'.entries, t.minimumCount ≤ x.estimatedRequests) :
    t.minimumCount ≤ t'.minimumCount := by
  by_cases hroom : t.entries.length < t.capacity
  · simp [minimumCount_of_room hroom]
  · have := t.bounded
    exact le_minimumCount (by omega) h

theorem record_of_mem {t : UriTop} {x : UriStatistic} (hx : x ∈ t.entries) :
    (t.record x.uri).Represents (t.estimate.add (.single x.uri)) := by
  have hentries : (t.record x.uri).entries =
      updateFirst (·.uri = x.uri) (grow 1 0) t.entries := by simp [record, find_of_mem hx]
  have huris : uris (t.record x.uri).entries = uris t.entries := by simp [hentries]
  have hmem : ∀ y ∈ (t.record x.uri).entries,
      y = grow 1 0 x ∨ (y ∈ t.entries ∧ y.uri ≠ x.uri) := by
    intro y hy
    rw [hentries] at hy
    rcases (mem_updateFirst t.distinct).mp hy with ⟨z, hz, hzx, rfl⟩ | hy
    · exact Or.inl (by rw [eq_of_uri_eq hz hx hzx])
    · exact Or.inr hy
  have hmin : t.minimumCount ≤ (t.record x.uri).minimumCount := by
    apply minimumCount_updateFirst_le
    · simp [record, find_of_mem hx]
    · simp [hentries]
    · intro y hy
      rcases hmem y hy with rfl | ⟨hy, -⟩
      · exact (minimumCount_le hx).trans (Nat.le_add_right _ _)
      · exact minimumCount_le hy
  constructor
  · intro y hy
    rcases hmem y hy with rfl | ⟨hy, hne⟩
    · simp [Estimate.add, Estimate.single, grow, upper_of_mem hx]
    · simp [Estimate.add, Estimate.single, upper_of_mem hy, hne]
  · intro y hy
    rcases hmem y hy with rfl | ⟨hy, hne⟩
    · simp [Estimate.add, Estimate.single, grow, error_of_mem hx]
    · simp [Estimate.add, Estimate.single, error_of_mem hy]
  · intro u hu
    rw [huris] at hu
    have hne : u ≠ x.uri := fun h => hu (h ▸ List.mem_map_of_mem hx)
    simpa [Estimate.add, Estimate.single, upper_of_not_mem hu, hne] using hmin

theorem record_of_room {t : UriTop} {u : Uri} (hu : u ∉ uris t.entries)
    (hroom : t.entries.length < t.capacity) :
    (t.record u).Represents (t.estimate.add (.single u)) := by
  have hentries : (t.record u).entries = t.entries ++ [⟨u, 1, 0⟩] := by
    simp [record, recordWeight, recordWeightEntries, find_of_not_mem hu, hroom]
  have hzero := minimumCount_of_room hroom
  have hne : ∀ x ∈ t.entries, x.uri ≠ u := fun x hx h => hu (h ▸ List.mem_map_of_mem hx)
  constructor
  · intro x hx
    rcases List.mem_append.mp (hentries ▸ hx) with hx | hx
    · simp [Estimate.add, Estimate.single, upper_of_mem hx, hne x hx]
    · rw [List.mem_singleton.mp hx]
      simp [Estimate.add, Estimate.single, upper_of_not_mem hu, hzero]
  · intro x hx
    rcases List.mem_append.mp (hentries ▸ hx) with hx | hx
    · simp [Estimate.add, Estimate.single, error_of_mem hx]
    · rw [List.mem_singleton.mp hx]
      simp [Estimate.add, Estimate.single, error_of_not_mem hu, hzero]
  · intro v hv
    have hv' : v ∉ uris t.entries ∧ v ≠ u := by
      simpa [hentries, uris, not_or] using hv
    simp [Estimate.add, Estimate.single, upper_of_not_mem hv'.1, hv'.2, hzero]

theorem record_of_full {t : UriTop} {u : Uri} (hu : u ∉ uris t.entries)
    (hfull : ¬ t.entries.length < t.capacity) :
    (t.record u).Represents (t.estimate.add (.single u)) := by
  obtain ⟨z, hz, hzmin⟩ := minimumCount_of_full hfull
  obtain ⟨e, he⟩ : ∃ e, t.entries.argmin (·.estimatedRequests) = some e := by
    refine Option.ne_none_iff_exists'.mp fun hnone => ?_
    rw [List.argmin_eq_none.mp hnone] at hz
    cases hz
  have hmem := List.argmin_mem he
  have hmin : e.estimatedRequests = t.minimumCount :=
    le_antisymm (hzmin ▸ List.le_of_mem_argmin hz he) (minimumCount_le hmem)
  have hentries : (t.record u).entries =
      updateFirst (·.uri = e.uri)
        (fun _ => ⟨u, t.minimumCount + 1, t.minimumCount + 0⟩) t.entries := by
    simp [record, recordWeight, recordWeightEntries, find_of_not_mem hu, hfull, he, hmin]
  have hcases : ∀ x ∈ (t.record u).entries,
      x = ⟨u, t.minimumCount + 1, t.minimumCount + 0⟩ ∨ (x ∈ t.entries ∧ x.uri ≠ u) := by
    intro x hx
    rw [hentries] at hx
    rcases (mem_updateFirst t.distinct).mp hx with ⟨-, -, -, rfl⟩ | ⟨hx, -⟩
    · exact Or.inl rfl
    · exact Or.inr ⟨hx, fun h => hu (h ▸ List.mem_map_of_mem hx)⟩
  have hle : t.minimumCount ≤ (t.record u).minimumCount := by
    apply minimumCount_updateFirst_le
    · simp [record, recordWeight, find_of_not_mem hu]
    · simp [hentries]
    · intro x hx
      rcases hcases x hx with rfl | ⟨hx, -⟩
      · exact Nat.le_succ _
      · exact minimumCount_le hx
  constructor
  · intro x hx
    rcases hcases x hx with rfl | ⟨hx, hne⟩
    · simp [Estimate.add, Estimate.single, upper_of_not_mem hu]
    · simp [Estimate.add, Estimate.single, upper_of_mem hx, hne]
  · intro x hx
    rcases hcases x hx with rfl | ⟨hx, hne⟩
    · simp [Estimate.add, Estimate.single, error_of_not_mem hu]
    · simp [Estimate.add, Estimate.single, error_of_mem hx]
  · intro v hv
    have hvu : v ≠ u := by
      rintro rfl
      refine hv (List.mem_map.mpr ⟨⟨v, t.minimumCount + 1, t.minimumCount + 0⟩, ?_, rfl⟩)
      rw [hentries]
      exact (mem_updateFirst t.distinct).mpr (Or.inl ⟨e, hmem, rfl, rfl⟩)
    have hupper : t.estimate.upper v = t.minimumCount := by
      by_cases hold : v ∈ uris t.entries
      · obtain ⟨x, hx, rfl⟩ := List.mem_map.mp hold
        have hxe : x.uri = e.uri := by
          by_contra hne
          refine hv (List.mem_map.mpr ⟨x, ?_, rfl⟩)
          rw [hentries]
          exact (mem_updateFirst t.distinct).mpr (Or.inr ⟨hx, hne⟩)
        rw [upper_of_mem hx, eq_of_uri_eq hx hmem hxe, hmin]
      · exact upper_of_not_mem hold
    simpa [Estimate.add, Estimate.single, hupper, hvu] using hle

theorem record_represents (t : UriTop) (u : Uri) :
    (t.record u).Represents (t.estimate.add (.single u)) := by
  by_cases hu : u ∈ uris t.entries
  · obtain ⟨x, hx, rfl⟩ := List.mem_map.mp hu
    exact record_of_mem hx
  · by_cases hroom : t.entries.length < t.capacity
    · exact record_of_room hu hroom
    · exact record_of_full hu hroom

@[simp] theorem record_capacity (t : UriTop) (u : Uri) : (t.record u).capacity = t.capacity := by
  unfold record
  split <;> rfl

@[simp] theorem merge_capacity (s t : UriTop) : (s.merge t).capacity = s.capacity := rfl

/-- Every entry before sorting carries the sum of the two estimates. -/
theorem mergedEntries_values {s t : UriTop} {x : UriStatistic} (hx : x ∈ mergedEntries s t) :
    x.estimatedRequests = (s.estimate.add t.estimate).upper x.uri ∧
      x.maximumError = (s.estimate.add t.estimate).error x.uri := by
  rcases List.mem_append.mp hx with hx | hx
  · obtain ⟨e, he, rfl⟩ := List.mem_map.mp hx
    simp [Estimate.add, estimate, find_of_mem he]
  · obtain ⟨e, he, rfl⟩ := List.mem_map.mp hx
    obtain ⟨he, hnone⟩ := List.mem_filter.mp he
    have hs : e.uri ∉ uris s.entries := by
      rw [← find_isSome_iff]
      simpa using hnone
    simp [Estimate.add, upper_of_mem he, error_of_mem he, upper_of_not_mem hs,
      error_of_not_mem hs, Nat.add_comm]

theorem mem_uris_mergedEntries {s t : UriTop} {u : Uri} :
    u ∈ uris (mergedEntries s t) ↔ u ∈ uris s.entries ∨ u ∈ uris t.entries := by
  rw [uris_mergedEntries]
  by_cases hu : u ∈ uris s.entries <;> simp [hu]

theorem length_le_mergedEntries (s t : UriTop) :
    s.entries.length ≤ (mergedEntries s t).length ∧
      t.entries.length ≤ (mergedEntries s t).length := by
  constructor
  · simp [mergedEntries]
  · have hsub : (uris t.entries).Subperm (uris (mergedEntries s t)) :=
      t.distinct.subperm fun u hu => mem_uris_mergedEntries.mpr (Or.inr hu)
    simpa [uris] using hsub.length_le

theorem merge_represents {s t : UriTop} (hcap : t.capacity = s.capacity) :
    (s.merge t).Represents (s.estimate.add t.estimate) := by
  have hperm := List.perm_insertionSort Before (mergedEntries s t)
  have hsorted := List.pairwise_insertionSort Before (mergedEntries s t)
  have hentries : (s.merge t).entries =
    ((mergedEntries s t).insertionSort Before).take s.capacity := rfl
  have hmem : ∀ x ∈ (s.merge t).entries, x ∈ mergedEntries s t := fun x hx =>
    hperm.subset (List.mem_of_mem_take (hentries ▸ hx))
  refine ⟨fun x hx => (mergedEntries_values (hmem x hx)).1,
    fun x hx => (mergedEntries_values (hmem x hx)).2, fun u hu => ?_⟩
  by_cases hroom : (s.merge t).entries.length < s.capacity
  · have hlen : (mergedEntries s t).length < s.capacity := by
      rw [hentries, List.length_take, hperm.length_eq] at hroom
      omega
    have hall : ((mergedEntries s t).insertionSort Before).take s.capacity =
        (mergedEntries s t).insertionSort Before :=
      List.take_of_length_le (by rw [hperm.length_eq]; omega)
    have hu' : u ∉ uris (mergedEntries s t) := by
      intro h
      rw [hentries, hall] at hu
      exact hu ((hperm.map (·.uri)).mem_iff.mpr h)
    have hout := not_or.mp (mt mem_uris_mergedEntries.mpr hu')
    have hs := minimumCount_of_room
      (((length_le_mergedEntries s t).1.trans_lt hlen) : s.entries.length < s.capacity)
    have ht := minimumCount_of_room
      (((length_le_mergedEntries s t).2.trans_lt hlen).trans_eq hcap.symm)
    simp [Estimate.add, upper_of_not_mem hout.1, upper_of_not_mem hout.2, hs, ht]
  · have hfull : (s.merge t).entries.length = (s.merge t).capacity :=
      le_antisymm (s.merge t).bounded (not_lt.mp hroom)
    refine le_minimumCount hfull fun x hx => ?_
    by_cases hu' : u ∈ uris (mergedEntries s t)
    · obtain ⟨y, hy, rfl⟩ := List.mem_map.mp hu'
      have hydrop : y ∈ ((mergedEntries s t).insertionSort Before).drop s.capacity := by
        have hy' := hperm.mem_iff.mpr hy
        rw [← List.take_append_drop s.capacity (List.insertionSort _ _)] at hy'
        rcases List.mem_append.mp hy' with h | h
        · exact absurd (List.mem_map_of_mem h) hu
        · exact h
      rw [← List.take_append_drop s.capacity (List.insertionSort _ _)] at hsorted
      have hbefore := (List.pairwise_append.mp hsorted).2.2 x hx y hydrop
      exact (mergedEntries_values hy).1 ▸ hbefore.estimate_le
    · have hout := not_or.mp (mt mem_uris_mergedEntries.mpr hu')
      rw [(mergedEntries_values (hmem x hx)).1]
      simp only [Estimate.add, upper_of_not_mem hout.1, upper_of_not_mem hout.2]
      exact Nat.add_le_add (minimumCount_le_upper s _) (minimumCount_le_upper t _)

/-- How a table came about. The tables of a run are joined in the order in which the
workers are, and every worker records the requests of its own connections. -/
inductive Origin where
  | new
  | record (origin : Origin) (uri : Uri)
  | merge (left right : Origin)

namespace Origin

def table (k : ℕ) (hk : 0 < k) : Origin → UriTop
  | new => UriTop.new k hk
  | record o u => (o.table k hk).record u
  | merge l r => (l.table k hk).merge (r.table k hk)

/-- How often a URI was recorded in all the streams below. -/
def count : Origin → Uri → ℕ
  | new, _ => 0
  | record o u, v => o.count v + if v = u then 1 else 0
  | merge l r, v => l.count v + r.count v

def total : Origin → ℕ
  | new => 0
  | record o _ => o.total + 1
  | merge l r => l.total + r.total

@[simp] theorem table_capacity (k : ℕ) (hk : 0 < k) (o : Origin) :
    (o.table k hk).capacity = k := by
  induction o with
  | new => rfl
  | record o u ih => simpa [table] using ih
  | merge l r ihl ihr => simpa [table] using ihl

theorem new_estimate (k : ℕ) (hk : 0 < k) : (UriTop.new k hk).estimate = Estimate.zero := by
  simp [estimate, Estimate.zero, UriTop.new, UriTop.find, minimumCount, hk]

theorem sound (k : ℕ) (hk : 0 < k) (o : Origin) :
    (o.table k hk).estimate.Sound k o.count o.total := by
  induction o with
  | new =>
    rw [table, new_estimate]
    exact Estimate.Sound.zero k
  | record o u ih =>
    exact (record_represents _ u).sound (by simp) (ih.add (Estimate.Sound.single k u))
  | merge l r ihl ihr =>
    exact (merge_represents (by simp)).sound (by simp) (ihl.add ihr)

end Origin

theorem table_bounds (k : ℕ) (hk : 0 < k) (o : Origin) :
    (o.table k hk).entries.length ≤ k ∧ (uris (o.table k hk).entries).Nodup ∧
      (∀ e ∈ (o.table k hk).entries, e.maximumError ≤ e.estimatedRequests ∧
        e.estimatedRequests - e.maximumError ≤ o.count e.uri ∧
        o.count e.uri ≤ e.estimatedRequests) ∧
      ∀ u, u ∉ uris (o.table k hk).entries → o.count u ≤ (o.table k hk).minimumCount := by
  have hsound := o.sound k hk
  refine ⟨by simpa using (o.table k hk).bounded, (o.table k hk).distinct, ?_, ?_⟩
  · intro e he
    have hup := upper_of_mem he
    have herr := error_of_mem he
    have hcount := hsound.count_le e.uri
    have hlower := hsound.upper_le e.uri
    have hle := hsound.error_le e.uri
    rw [hup] at hcount hlower hle
    rw [herr] at hlower hle
    exact ⟨hle, by omega, hcount⟩
  · intro u hu
    exact upper_of_not_mem hu ▸ hsound.count_le u

theorem table_bounds_sample :
    let o := Origin.merge (.record (.record .new [97]) [98]) (.record .new [99])
    (o.table 2 (by decide)).entries.length ≤ 2 ∧ (uris (o.table 2 (by decide)).entries).Nodup ∧
      (∀ e ∈ (o.table 2 (by decide)).entries, e.maximumError ≤ e.estimatedRequests ∧
        e.estimatedRequests - e.maximumError ≤ o.count e.uri ∧
        o.count e.uri ≤ e.estimatedRequests) ∧
      ∀ u, u ∉ uris (o.table 2 (by decide)).entries →
        o.count u ≤ (o.table 2 (by decide)).minimumCount :=
  table_bounds 2 (by decide) _

/-- No heavy hitter is lost: a URI with more than a `k`-th part of all the records is an
entry, however the records were split and the tables merged. -/
theorem table_weight (k : ℕ) (hk : 0 < k) (o : Origin) :
    ((o.table k hk).entries.map (·.estimatedRequests)).sum ≤ o.total ∧
      k * (o.table k hk).minimumCount ≤ o.total ∧
      (∀ e ∈ (o.table k hk).entries, k * e.maximumError ≤ o.total) ∧
      ∀ u, o.total < k * o.count u → u ∈ uris (o.table k hk).entries := by
  have hsound := o.sound k hk
  have hcases := minimumCount_cases (represents_estimate (o.table k hk))
  rw [Origin.table_capacity] at hcases
  refine ⟨?_, hsound.mul_le_total hcases, fun e he => ?_, fun u hu => ?_⟩
  · have hsum : ((o.table k hk).entries.map (·.estimatedRequests)).sum =
        ∑ u ∈ (o.table k hk).keys, (o.table k hk).estimate.upper u := by
      rw [keys, List.sum_toFinset _ (o.table k hk).distinct, uris, List.map_map]
      exact congrArg List.sum (List.map_congr_left fun e he => (upper_of_mem he).symm)
    rw [hsum]
    exact hsound.weight _ (by simpa using (o.table k hk).card_keys_le)
  · exact error_of_mem he ▸ hsound.error_weight e.uri
  · exact mem_keys.mp (hsound.mem_of_heavy hcases
      (fun x hx => upper_of_not_mem (by simpa using hx)) hu)

theorem table_weight_sample :
    let o := Origin.merge (.record (.record .new [97]) [97]) (.record .new [98])
    ((o.table 2 (by decide)).entries.map (·.estimatedRequests)).sum ≤ o.total ∧
      2 * (o.table 2 (by decide)).minimumCount ≤ o.total ∧
      (∀ e ∈ (o.table 2 (by decide)).entries, 2 * e.maximumError ≤ o.total) ∧
      ∀ u, o.total < 2 * o.count u → u ∈ uris (o.table 2 (by decide)).entries :=
  table_weight 2 (by decide) _

end Rload.UriTop
