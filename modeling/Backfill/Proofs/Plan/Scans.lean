import Backfill.Proofs.Plan.Recipients

/-!
# What queries scan

A query of a plan scans a valid range of bounded length inside one slice, or a piece of what failed before.
The range begins with a value that some input needs and ends with one; between the two, when entities share
the query, it may hold values that none of them needs.
-/

namespace Backfill

open Range (values)

variable {ε α : Type} [Axis α]

/-- The query scans fewer than `n` steps beyond its first value, from a value that some input needs to one that
some input needs. -/
structure Query.Spans (inputs : List (PlanInput ε α)) (n : Nat) (q : Query ε α) : Prop where
  valid : q.range.valid = true
  first : ∃ input ∈ inputs, q.range.first ∈ input.needed
  last : ∃ input ∈ inputs, q.range.last ∈ input.needed
  length : Axis.rank q.range.last - Axis.rank q.range.first < n

namespace Plan

variable {o : Options} {index : Index α} {inputs : List (PlanInput ε α)} {slice : Range α}
  {group : List (Member ε α)}

/-! ## Slices -/

theorem mem_splitAll_of_mem_orderedSlices {maxRange : Nat} {askers : List (Asker ε α)}
    (hs : slice ∈ orderedSlices maxRange index askers) :
    slice ∈ Range.splitAll (index.slices (Range.merge (askers.flatMap (·.fresh)))) maxRange := by
  simp only [orderedSlices] at hs
  split at hs
  · cases hs
  · exact List.mem_of_mem_filter (List.mem_mergeSort.1 hs)

/-- Values that some input needs and a slice holds. -/
def neededIn (inputs : List (PlanInput ε α)) (slice : Range α) : Set α :=
  {x | x ∈ slice ∧ ∃ input ∈ inputs, x ∈ input.needed}

/-- A range between needed values of a slice is no longer than the slice. -/
theorem spans_of_neededIn {q : Query ε α} {n : Nat} (hslice : Axis.rank slice.last - Axis.rank slice.first < n)
    (hv : q.range.valid = true) (hf : q.range.first ∈ neededIn inputs slice)
    (hl : q.range.last ∈ neededIn inputs slice) : q.Spans inputs n := by
  obtain ⟨hfs, hfirst⟩ := hf
  obtain ⟨hls, hlast⟩ := hl
  rw [Range.mem_iff_rank] at hfs hls
  exact ⟨hv, hfirst, hlast, by omega⟩

theorem Grouped.merged {askers : List (Asker ε α)} (h : Grouped o askers slice group) {m : Member ε α}
    (hm : m ∈ group) : Range.Merged m.parts := by
  rw [h.parts m hm]
  exact Range.merged_clip _ _

theorem Grouped.valid {askers : List (Asker ε α)} (h : Grouped o askers slice group) {m : Member ε α}
    (hm : m ∈ group) {r : Range α} (hr : r ∈ m.parts) : r.valid = true :=
  (h.merged hm).valid r hr

variable [DiscreteAxis α]

theorem length_of_mem_orderedSlices {maxRange : Nat} {askers : List (Asker ε α)}
    (hs : slice ∈ orderedSlices (max 1 maxRange) index askers) :
    Axis.rank slice.last - Axis.rank slice.first < (max 1 maxRange : Nat) := by
  have := (Range.mem_splitAll (mem_splitAll_of_mem_orderedSlices hs)).2
  omega

/-! ## What askers ask for -/

theorem exists_needed_of_mem_fresh {asker : Asker ε α} (ha : asker ∈ inputs.filterMap (asker? o)) {x : α}
    (hx : x ∈ values asker.fresh) : ∃ input ∈ inputs, x ∈ input.needed := by
  obtain ⟨input, hin, ha⟩ := List.mem_filterMap.1 ha
  refine ⟨input, hin, ?_⟩
  rw [PlanInput.needed_eq]
  exact Or.inl (values_fresh_subset ha hx)

theorem exists_needed_of_mem_retries {asker : Asker ε α} (ha : asker ∈ inputs.filterMap (asker? o)) {x : α}
    (hx : x ∈ values asker.retries) : ∃ input ∈ inputs, x ∈ input.needed := by
  obtain ⟨input, hin, ha⟩ := List.mem_filterMap.1 ha
  refine ⟨input, hin, ?_⟩
  rw [PlanInput.needed_eq, ← values_retries ha]
  exact Or.inr hx

theorem Grouped.needed (h : Grouped o (inputs.filterMap (asker? o)) slice group) {m : Member ε α} (hm : m ∈ group)
    {r : Range α} (hr : r ∈ m.parts) {x : α} (hx : x ∈ r) : x ∈ neededIn inputs slice := by
  rw [h.parts m hm] at hr
  obtain ⟨hfresh, hslice⟩ := Range.mem_values_clip.1 ⟨r, hr, hx⟩
  exact ⟨hslice, exists_needed_of_mem_fresh (h.listed m hm) hfresh⟩

/-! ## Queries -/

theorem Grouped.spans_single (h : Grouped o (inputs.filterMap (asker? o)) slice group) {n : Nat}
    (hslice : Axis.rank slice.last - Axis.rank slice.first < n) {m : Member ε α} (hm : m ∈ group) {r : Range α}
    (hr : r ∈ m.parts) : (Query.single m.asker.entity r).Spans inputs n := by
  have hv := h.valid hm hr
  exact spans_of_neededIn hslice hv (h.needed hm hr (Range.first_mem hv)) (h.needed hm hr (Range.last_mem hv))

theorem Grouped.spans_sharedQuery [DecidableEq α] (h : Grouped o (inputs.filterMap (asker? o)) slice group) {n : Nat}
    (hslice : Axis.rank slice.last - Axis.rank slice.first < n) {range : Range α}
    (hr : sharedRange? group = some range) : (sharedQuery group range).Spans inputs n := by
  have hhull := hull?_of_sharedRange? hr
  -- the hull begins in the part of one member and ends in that of another
  obtain ⟨⟨a, ha, hfirst⟩, b, hb, hlast⟩ := Range.ends_of_hull? hhull
  obtain ⟨m, hm, ham⟩ := List.mem_flatMap.1 ha
  obtain ⟨k, hk, hbk⟩ := List.mem_flatMap.1 hb
  have hav := h.valid hm ham
  have hbv := h.valid hk hbk
  refine spans_of_neededIn hslice ?_ ?_ ?_
  · exact Range.valid_of_mem (Range.mem_of_hull? hhull ha (Range.first_mem hav))
  · change range.first ∈ _
    rw [hfirst]
    exact h.needed hm ham (Range.first_mem hav)
  · change range.last ∈ _
    rw [hlast]
    exact h.needed hk hbk (Range.last_mem hbv)

theorem spans_retry {asker : Asker ε α} (ha : asker ∈ inputs.filterMap (asker? o)) {r : Range α}
    (hr : r ∈ Range.splitAll asker.retries (max 1 o.maxRange)) :
    (Query.single asker.entity r).Spans inputs (max 1 o.maxRange) := by
  obtain ⟨hv, hlength⟩ := Range.mem_splitAll hr
  have hneeded : ∀ x ∈ r, ∃ input ∈ inputs, x ∈ input.needed := by
    intro x hx
    refine exists_needed_of_mem_retries ha ?_
    rw [← Range.values_splitAll asker.retries (max 1 o.maxRange)]
    exact ⟨r, hr, hx⟩
  refine ⟨hv, hneeded _ (Range.first_mem hv), hneeded _ (Range.last_mem hv), ?_⟩
  simp only [Query.range]
  omega

theorem spans_of_mem_optimize [DecidableEq α] {q : Query ε α} (hq : q ∈ (optimize o index inputs).queries) :
    q.Spans inputs (max 1 o.maxRange) := by
  rw [optimize_queries, List.mem_append] at hq
  rcases hq with hq | hq
  · obtain ⟨slice, hs, group, hg, ⟨m, hm, r, hr, rfl⟩ | ⟨range, hr, rfl⟩⟩ := mem_sliceQueries hq
    · exact hg.spans_single (length_of_mem_orderedSlices hs) hm hr
    · exact hg.spans_sharedQuery (length_of_mem_orderedSlices hs) hr
  · obtain ⟨asker, ha, r, hr, rfl⟩ := mem_retryQueries hq
    exact spans_retry ha hr

end Plan

end Backfill
