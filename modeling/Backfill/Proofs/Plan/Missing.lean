import Backfill.Plan.Optimize
import Backfill.Proofs.Range.Todo

/-!
# What an input misses

An input needs what its range holds and its state does not, and what failed before. The asker that the
planner makes of it takes pieces of the former, newest first; the slices are those of the index that hold
some piece of some asker, cut to size.
-/

namespace Backfill

open Range (KeepsLater Merged Separate values)

variable {ε α : Type} [Axis α]

/-- In the range, not covered, and not among the failures. -/
def PlanInput.missing (i : PlanInput ε α) : Set α :=
  {x | x ∈ i.full ∧ x ∉ values i.covered ∧ x ∉ values i.toRetry}

/-- In the range, and among the failures. -/
def PlanInput.failed (i : PlanInput ε α) : Set α := {x | x ∈ i.full ∧ x ∈ values i.toRetry}

/-- In the range, and not covered or among the failures. -/
def PlanInput.needed (i : PlanInput ε α) : Set α :=
  {x | x ∈ i.full ∧ (x ∉ values i.covered ∨ x ∈ values i.toRetry)}

namespace PlanInput

theorem needed_eq (i : PlanInput ε α) : i.needed = i.missing ∪ i.failed := by
  ext x
  simp only [needed, missing, failed, Set.mem_ofPred_eq, Set.mem_union]
  tauto

theorem disjoint_missing_failed (i : PlanInput ε α) : Disjoint i.missing i.failed := by
  rw [Set.disjoint_left]
  exact fun x hm hf => hm.2.2 hf.2

theorem missing_eq (i : PlanInput ε α) : i.missing = Range.unfetched i.full i.covered i.toRetry := by
  ext x
  simp only [missing, Range.unfetched, Set.mem_ofPred_eq, Set.mem_sdiff, Set.mem_union, Range.mem_values_singleton,
    not_or]

theorem needed_eq_empty {i : PlanInput ε α} (h : ¬ i.full.valid = true) : i.needed = ∅ := by
  rw [Set.eq_empty_iff_forall_notMem]
  exact fun x hx => h (Range.valid_of_mem hx.1)

theorem ncard_needed_le (i : PlanInput ε UInt64) :
    i.needed.ncard ≤ i.full.last.toNat + 1 - i.full.first.toNat :=
  (Set.ncard_le_ncard (fun _ hx => hx.1) (Set.toFinite _)).trans (Range.ncard_blocks i.full).le

end PlanInput

namespace Plan

variable {o : Options} {input : PlanInput ε α} {asker : Asker ε α} {askers : List (Asker ε α)}

/-! ## Askers -/

theorem asker?_of_invalid (h : ¬ input.full.valid = true) : asker? o input = none := if_neg h

theorem asker?_of_valid (h : input.full.valid = true) : asker? o input = some ⟨input.entity,
    Range.merge (Range.todo input.full input.covered input.toRetry (max 1 o.maxRange) o.maxQueries).fresh,
    Range.clip input.toRetry input.full⟩ := if_pos h

theorem exists_asker? (h : input.full.valid = true) : ∃ asker, asker? o input = some asker :=
  ⟨_, asker?_of_valid h⟩

theorem valid_of_asker? (h : asker? o input = some asker) : input.full.valid = true := by
  by_contra hv
  rw [asker?_of_invalid hv] at h
  cases h

theorem entity_of_asker? (h : asker? o input = some asker) : asker.entity = input.entity := by
  rw [asker?_of_valid (valid_of_asker? h)] at h
  cases h
  rfl

theorem merged_retries (h : asker? o input = some asker) : Merged asker.retries := by
  rw [asker?_of_valid (valid_of_asker? h)] at h
  cases h
  exact Range.merged_clip input.toRetry input.full

theorem merged_fresh (h : asker? o input = some asker) : Merged asker.fresh := by
  rw [asker?_of_valid (valid_of_asker? h)] at h
  cases h
  exact Range.merged_merge _

variable [DiscreteAxis α]

theorem values_exclude_full (input : PlanInput ε α) :
    values (Range.exclude [input.full] (input.covered ++ Range.clip input.toRetry input.full)) = input.missing := by
  rw [Range.values_left, input.missing_eq]

theorem values_retries (h : asker? o input = some asker) : values asker.retries = input.failed := by
  rw [asker?_of_valid (valid_of_asker? h)] at h
  cases h
  ext x
  exact Range.mem_values_clip.trans and_comm

theorem values_fresh_of_asker? (h : asker? o input = some asker) : values asker.fresh =
    values (Range.todo input.full input.covered input.toRetry (max 1 o.maxRange) o.maxQueries).fresh := by
  rw [asker?_of_valid (valid_of_asker? h)] at h
  cases h
  exact Range.values_merge _

theorem values_fresh_subset (h : asker? o input = some asker) : values asker.fresh ⊆ input.missing := by
  rw [values_fresh_of_asker? h, input.missing_eq]
  exact (Range.newest_fresh_todo _ _ _ _ _).subset

theorem keepsLater_fresh (h : asker? o input = some asker) : KeepsLater (values asker.fresh) input.missing := by
  rw [values_fresh_of_asker? h, input.missing_eq]
  exact (Range.newest_fresh_todo _ _ _ _ _).keepsLater

theorem values_fresh [Finite α] (h : asker? o input = some asker) (hcap : input.missing.ncard ≤ o.maxQueries) :
    values asker.fresh = input.missing := by
  rw [← values_exclude_full] at hcap ⊢
  rw [values_fresh_of_asker? h, Range.fresh_todo]
  exact (Range.merged_exclude _ _).values_takePieces hcap

theorem fresh_nonempty (h : asker? o input = some asker) (hcap : 1 ≤ o.maxQueries)
    (hmissing : input.missing.Nonempty) : (values asker.fresh).Nonempty := by
  rw [← values_exclude_full] at hmissing
  rw [values_fresh_of_asker? h, Range.fresh_todo]
  exact (Range.merged_exclude _ _).takePieces_nonempty _ hcap hmissing

theorem asker_of_needless (h : asker? o input = some asker) (hneed : input.needed = ∅) :
    asker.fresh = [] ∧ asker.retries = [] := by
  rw [PlanInput.needed_eq, Set.union_empty_iff] at hneed
  refine ⟨(merged_fresh h).eq_nil ?_, (merged_retries h).eq_nil ?_⟩
  · exact Set.subset_eq_empty (values_fresh_subset h) hneed.1
  · rw [values_retries h, hneed.2]

/-! ## Slices -/

/-- What the index is asked for. -/
def requested (o : Options) (inputs : List (PlanInput ε α)) : List (Range α) :=
  Range.merge ((inputs.filterMap (asker? o)).flatMap (·.fresh))

omit [Axis α] [DiscreteAxis α] in
theorem fresh_subset_flatMap (ha : asker ∈ askers) : asker.fresh ⊆ askers.flatMap (·.fresh) :=
  fun _ hr => List.mem_flatMap.2 ⟨asker, ha, hr⟩

theorem values_fresh_subset_requested {inputs : List (PlanInput ε α)} (hin : input ∈ inputs)
    (h : asker? o input = some asker) : values asker.fresh ⊆ values (requested o inputs) := by
  rw [requested, Range.values_merge]
  exact Range.values_subset (fresh_subset_flatMap (List.mem_filterMap.2 ⟨input, hin, h⟩))

theorem separate_orderedSlices {index : Index α}
    (h : Separate (index.slices (Range.merge (askers.flatMap (·.fresh))))) (maxRange : Nat) :
    Separate (orderedSlices maxRange index askers) := by
  simp only [orderedSlices]
  split
  · exact .nil
  · exact Separate.perm ((Range.separate_splitAll h maxRange).filter _) (List.mergeSort_perm _ _).symm

/-- What an asker misses in the slices of the index is in the slices of the plan. -/
theorem mem_values_orderedSlices {index : Index α} (maxRange : Nat) (ha : asker ∈ askers) {x : α}
    (hx : x ∈ values asker.fresh)
    (hs : x ∈ values (index.slices (Range.merge (askers.flatMap (·.fresh))))) :
    x ∈ values (orderedSlices maxRange index askers) := by
  have hneed : x ∈ values (Range.merge (askers.flatMap (·.fresh))) := by
    rw [Range.values_merge]
    exact Range.values_subset (fresh_subset_flatMap ha) hx
  obtain ⟨need, hn, hxn⟩ := hneed
  rw [← Range.values_splitAll _ maxRange] at hs
  obtain ⟨s, hs, hxs⟩ := hs
  simp only [orderedSlices]
  split
  · rename_i hempty
    rw [List.isEmpty_iff.1 hempty] at hn
    cases hn
  · refine ⟨s, List.mem_mergeSort.2 (List.mem_filter.2 ⟨hs, ?_⟩), hxs⟩
    exact List.any_eq_true.2 ⟨need, hn, Range.overlaps_iff.2 ⟨x, hxn, hxs⟩⟩

end Plan

end Backfill
