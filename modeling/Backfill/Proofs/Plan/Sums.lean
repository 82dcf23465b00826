import Backfill.Proofs.Plan.Batching
import Backfill.Proofs.Plan.Scans
import Backfill.Proofs.Range.Count
import Mathlib.Algebra.Order.BigOperators.Group.List

/-!
# Sums of lengths are words

The lengths of ranges are added up in words, first those of one list, then those of the lists in a group of askers.
Merged ranges keep apart, so that the lengths of one list never exceed the number of blocks. Each list of a group is
confined to one slice, so that the lists exceed it together at most as many times as the group has members.
-/

namespace Backfill

/-- Adds up words in order, unless a total on the way is no word. -/
def wordSum? (ns : List Nat) : Option Nat :=
  ns.foldlM (fun total n => if total + n ≤ maxWord then some (total + n) else none) 0

/-- No total on the way exceeds the last one. -/
theorem wordSum?_eq (ns : List Nat) : wordSum? ns = if ns.sum ≤ maxWord then some ns.sum else none := by
  have hfrom : ∀ total ≤ maxWord,
      ns.foldlM (fun total n => if total + n ≤ maxWord then some (total + n) else none) total =
        if total + ns.sum ≤ maxWord then some (total + ns.sum) else none := by
    induction ns with
    | nil => simp +contextual
    | cons n ns ih =>
        intro total htotal
        rw [List.foldlM_cons, List.sum_cons, ← Nat.add_assoc]
        by_cases hn : total + n ≤ maxWord
        · rw [if_pos hn]
          exact ih _ hn
        · have hsum : ¬ total + n + ns.sum ≤ maxWord := by omega
          rw [if_neg hn, if_neg hsum]
          rfl
  rw [wordSum?, hfrom 0 (Nat.zero_le _), Nat.zero_add]

example : wordSum? [1, maxWord] = none := by decide

theorem wordSum?_of_le {ns : List Nat} (h : ns.sum ≤ maxWord) : wordSum? ns = some ns.sum := by
  rw [wordSum?_eq, if_pos h]

open Range (values)

namespace Plan

variable {ε : Type} {o : Options} {slice : Range UInt64} {askers : List (Asker ε UInt64)}
  {group : List (Member ε UInt64)}

/-- What a member misses in a slice has no more blocks than the slice. -/
theorem Grouped.totalSize_le (h : Grouped o askers slice group) {m : Member ε UInt64} (hm : m ∈ group) {n : Nat}
    (hslice : Axis.rank slice.last - Axis.rank slice.first < n) : Range.totalSize m.parts ≤ n := by
  have hinside : values m.parts ⊆ {x | x ∈ slice} := by
    intro x hx
    rw [h.parts m hm] at hx
    exact (Range.mem_values_clip.1 hx).2
  calc Range.totalSize m.parts ≤ (values m.parts).ncard := Range.totalSize_le _
    _ ≤ {x | x ∈ slice}.ncard := Set.ncard_le_ncard hinside (Set.toFinite _)
    _ ≤ n := Range.ncard_blocks_le hslice

theorem Grouped.sum_totalSize_le (h : Grouped o askers slice group) {n : Nat}
    (hslice : Axis.rank slice.last - Axis.rank slice.first < n) :
    (group.map fun m => Range.totalSize m.parts).sum ≤ max 1 o.maxAddresses * n := by
  have hsum := List.sum_le_card_nsmul (group.map fun m => Range.totalSize m.parts) n fun size hsize => by
    obtain ⟨m, hm, rfl⟩ := List.mem_map.1 hsize
    exact h.totalSize_le hm hslice
  rw [List.length_map, Nat.nsmul_eq_mul] at hsum
  exact hsum.trans (Nat.mul_le_mul_right n h.length_le)

/-- The length of a list of ranges is added up in words, whatever the ranges. It is the number of blocks that they
hold, except that the whole axis counts one block less. With caps on entities and blocks whose product is a word, so
is what the scans of a group cost one by one: the sum that the hull of the group is compared with does not start over.
It does not matter which queries the plan has made before it comes to the group, and how often each asker has been
served in them. -/
theorem length_sums_fit :
    (∀ ranges : List (Range UInt64),
      wordSum? ((Range.merge ranges).map Range.size) = some (Range.totalSize ranges) ∧
      ((∀ x, x ∈ values ranges) → Range.totalSize ranges = maxWord) ∧
      ((∃ x, x ∉ values ranges) → Range.totalSize ranges = (values ranges).ncard)) ∧
    ∀ {ε : Type} (o : Options) (index : Index UInt64) (inputs : List (PlanInput ε UInt64)),
      max 1 o.maxAddresses * max 1 o.maxRange ≤ maxWord →
      ∀ slice ∈ (optimize o index inputs).slices, ∀ used : List Nat,
      ∀ group ∈ groupsOf (max 1 o.maxAddresses - 1)
          (membersOf o.maxQueries used (inputs.filterMap (asker? o)) slice),
        wordSum? (group.map fun m => Range.totalSize m.parts) =
          some (group.foldr (fun m n => Range.totalSize m.parts + n) 0) := by
  refine ⟨fun ranges => ⟨?_, fun hall => ?_, fun ⟨x, hx⟩ => ?_⟩, ?_⟩
  · rw [Range.totalSize_eq_sum]
    apply wordSum?_of_le
    rw [← Range.totalSize_eq_sum]
    exact Range.totalSize_le_maxWord ranges
  · exact Range.totalSize_eq_maxWord (Set.eq_univ_of_forall hall)
  · exact Range.totalSize_eq_ncard fun hall => hx (hall ▸ Set.mem_univ x)
  · intro ε o index inputs hcaps slice hs used group hg
    have hsum := (grouped_of_mem hg).sum_totalSize_le (length_of_mem_orderedSlices hs)
    rw [wordSum?_of_le (hsum.trans hcaps), List.sum_eq_foldr, List.foldr_map]

/-- Overlaps count once, and all blocks as one less. Two contracts miss two blocks each in a slice; how often they have
been served before it leaves room for both. -/
theorem length_sums_fit_twoGaps :
    Range.totalSize [⟨8, 9⟩, ⟨3, 5⟩, (⟨4, 6⟩ : Range UInt64)] =
      (values [⟨8, 9⟩, ⟨3, 5⟩, (⟨4, 6⟩ : Range UInt64)]).ncard ∧
    Range.totalSize [⟨1, 6⟩, Range.allBlocks] = maxWord ∧
    ∃ slice ∈ (optimize ⟨2, 4, 3⟩ (.fixed [⟨0, 9⟩]) twoGaps).slices,
      ∃ group ∈ groupsOf (max 1 2 - 1) (membersOf 3 [2, 0] (twoGaps.filterMap (asker? ⟨2, 4, 3⟩)) slice),
        group.map (·.parts) = [[⟨5, 5⟩, ⟨7, 7⟩], [⟨5, 5⟩, ⟨7, 7⟩]] ∧
        wordSum? (group.map fun m => Range.totalSize m.parts) =
          some (group.foldr (fun m n => Range.totalSize m.parts + n) 0) := by
  have hmissing : ∀ r ∈ [⟨8, 9⟩, ⟨3, 5⟩, (⟨4, 6⟩ : Range UInt64)], r.contains 7 = false := by decide
  refine ⟨(length_sums_fit.1 _).2.2 ⟨7, ?_⟩, (length_sums_fit.1 _).2.1 fun x => ?_, ⟨4, 7⟩, ?_⟩
  · rintro ⟨r, hr, hx⟩
    exact Bool.eq_false_iff.1 (hmissing r hr) (Range.contains_iff_mem.2 hx)
  · exact ⟨Range.allBlocks, by simp, Range.mem_allBlocks x⟩
  · have hslices : (optimize ⟨2, 4, 3⟩ (.fixed [⟨0, 9⟩]) twoGaps).slices = [⟨4, 7⟩] := by cbv
    have hs : (⟨4, 7⟩ : Range UInt64) ∈ (optimize ⟨2, 4, 3⟩ (.fixed [⟨0, 9⟩]) twoGaps).slices := by
      rw [hslices]
      exact List.mem_singleton_self _
    have hgroups : (groupsOf (max 1 2 - 1) (membersOf 3 [2, 0] (twoGaps.filterMap (asker? ⟨2, 4, 3⟩)) ⟨4, 7⟩)).map
        (·.map (·.parts)) = [[[⟨5, 5⟩, ⟨7, 7⟩], [⟨5, 5⟩, ⟨7, 7⟩]]] := by cbv
    obtain ⟨group, hg, hparts⟩ := List.mem_map.1 (hgroups ▸ List.mem_singleton_self _)
    exact ⟨hs, group, hg, hparts, length_sums_fit.2 ⟨2, 4, 3⟩ (.fixed [⟨0, 9⟩]) twoGaps (by decide) _ hs _ _ hg⟩

end Plan

end Backfill
