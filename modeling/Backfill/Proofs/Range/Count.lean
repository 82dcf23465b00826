import Backfill.Proofs.Range.Merge
import Mathlib.Order.Interval.Finset.Nat

/-!
# Counting values

Separate ranges hold as many values together as one by one, and no fewer than there are ranges. The size of a
range of blocks is the number of its blocks, except that the whole axis counts one block less. So is a total size,
which counts overlaps once: where a block is missing no range has more blocks than a word can count, and a list
that misses none merges to a single range.
-/

namespace Backfill.Range

section Lists

variable {α : Type} [Axis α] [Finite α]

theorem ncard_values_append {a b : List (Range α)} (h : ∀ x ∈ values a, x ∉ values b) :
    (values (a ++ b)).ncard = (values a).ncard + (values b).ncard := by
  rw [values_append]
  exact Set.ncard_union_eq (Set.disjoint_left.2 h) (Set.toFinite _) (Set.toFinite _)

/-- Lists that are separate from each other hold as many values together as one by one. -/
theorem sum_ncard_values {lists : List (List (Range α))} (h : Separate lists.flatten) :
    (lists.map fun ranges => (values ranges).ncard).sum = (values lists.flatten).ncard := by
  induction lists with
  | nil => simp
  | cons ranges lists ih =>
      rw [List.flatten_cons] at h ⊢
      obtain ⟨-, hlists, hdisj⟩ := separate_append.1 h
      rw [List.map_cons, List.sum_cons, ih hlists, ncard_values_append hdisj]

theorem length_le_ncard {ranges : List (Range α)} (hv : ∀ r ∈ ranges, r.valid = true) (ho : Separate ranges) :
    ranges.length ≤ (values ranges).ncard := by
  induction ranges with
  | nil => simp
  | cons r ranges ih =>
      obtain ⟨hr, hv⟩ := List.forall_mem_cons.1 hv
      obtain ⟨-, ho, hdisj⟩ := separate_append.1 (show Separate ([r] ++ ranges) from ho)
      have hone : 0 < (values [r]).ncard :=
        (Set.ncard_pos (Set.toFinite _)).2 ⟨r.first, mem_values_singleton.2 (first_mem hr)⟩
      rw [← List.singleton_append, ncard_values_append hdisj, List.length_append, List.length_singleton]
      have := ih hv ho
      omega

end Lists

/-! ## Blocks -/

theorem ncard_blocks (r : Range UInt64) : {x | x ∈ r}.ncard = r.last.toNat + 1 - r.first.toNat := by
  have himage : UInt64.toNat '' {x | x ∈ r} = Set.Icc r.first.toNat r.last.toNat := by
    ext n
    rw [Set.mem_image, Set.mem_Icc]
    constructor
    · rintro ⟨x, hx, rfl⟩
      rw [Set.mem_ofPred_eq, mem_iff_rank] at hx
      simp only [rank_word] at hx
      omega
    · rintro ⟨hfirst, hlast⟩
      have hword : n < 2 ^ 64 := Nat.lt_of_le_of_lt hlast r.last.toNat_lt
      have hn : (UInt64.ofNat n).toNat = n := UInt64.toNat_ofNat_of_lt' hword
      refine ⟨UInt64.ofNat n, ?_, hn⟩
      rw [Set.mem_ofPred_eq, mem_iff_rank]
      simp only [rank_word, hn]
      omega
  rw [← Set.ncard_image_of_injective _ fun _ _ h => UInt64.toNat_inj.1 h, himage, ← Finset.coe_Icc,
    Set.ncard_coe_finset, Nat.card_Icc]

theorem ncard_blocks_le {r : Range UInt64} {n : Nat} (h : Axis.rank r.last - Axis.rank r.first < n) :
    {x | x ∈ r}.ncard ≤ n := by
  rw [rank_word, rank_word] at h
  rw [ncard_blocks]
  omega

theorem size_eq (r : Range UInt64) : r.size = min {x | x ∈ r}.ncard maxWord := by
  rw [ncard_blocks]
  change wordSpan r.first r.last = _
  unfold wordSpan
  split
  · rename_i hlt
    rw [UInt64.lt_iff_toNat_lt] at hlt
    omega
  · rename_i hle
    rw [UInt64.lt_iff_toNat_lt] at hle
    congr 1
    omega

/-- The whole axis of blocks. -/
def allBlocks : Range UInt64 := ⟨0, 18446744073709551615⟩

theorem mem_allBlocks (x : UInt64) : x ∈ allBlocks := by
  have hx := x.toNat_lt
  constructor
  · exact UInt64.zero_le
  · rw [UInt64.le_iff_toNat_le]
    change x.toNat ≤ 18446744073709551615
    omega

theorem ncard_univ_blocks : (Set.univ : Set UInt64).ncard = maxWord + 1 := by
  have hall : {x | x ∈ allBlocks} = Set.univ := Set.eq_univ_of_forall mem_allBlocks
  rw [← hall, ncard_blocks]
  rfl

/-- Where a block is missing, the others can be counted in a word. -/
theorem ncard_le_maxWord {s : Set UInt64} (h : s ≠ Set.univ) : s.ncard ≤ maxWord := by
  have := Set.ncard_lt_ncard (Set.ssubset_univ_iff.2 h) (Set.toFinite _)
  rw [ncard_univ_blocks] at this
  omega

theorem totalSize_eq_sum (ranges : List (Range UInt64)) : totalSize ranges = ((merge ranges).map size).sum := by
  rw [List.sum_eq_foldr, List.foldr_map, totalSize]

theorem sum_size_eq_ncard {ranges : List (Range UInt64)} (hsep : Separate ranges) (h : values ranges ≠ Set.univ) :
    (ranges.map size).sum = (values ranges).ncard := by
  induction ranges with
  | nil => simp
  | cons r ranges ih =>
      have hone : values [r] = {x | x ∈ r} := Set.ext fun _ => mem_values_singleton
      obtain ⟨-, hrest, hdisj⟩ := separate_append.1 (show Separate ([r] ++ ranges) from hsep)
      rw [← List.singleton_append, values_append] at h
      -- neither the range nor the others hold the block that is missing
      have hr : values [r] ≠ Set.univ := fun hall => h (by rw [hall, Set.univ_union])
      have hothers : values ranges ≠ Set.univ := fun hall => h (by rw [hall, Set.union_univ])
      have hsize : r.size = (values [r]).ncard := by
        rw [size_eq, ← hone, Nat.min_eq_left (ncard_le_maxWord hr)]
      rw [List.map_cons, List.sum_cons, hsize, ih hrest hothers, ← ncard_values_append hdisj,
        List.singleton_append]

theorem totalSize_eq_ncard {ranges : List (Range UInt64)} (h : values ranges ≠ Set.univ) :
    totalSize ranges = (values ranges).ncard := by
  rw [← values_merge ranges] at h
  rw [totalSize_eq_sum, sum_size_eq_ncard (merged_merge ranges).separate h, values_merge]

/-- The whole axis merges to a single range, which counts one block less than it holds. -/
theorem totalSize_eq_maxWord {ranges : List (Range UInt64)} (h : values ranges = Set.univ) :
    totalSize ranges = maxWord := by
  have hsingle : Merged [allBlocks] := ⟨by decide, List.pairwise_singleton ..⟩
  have hmerge : merge ranges = [allBlocks] := by
    refine (merged_merge ranges).ext hsingle ?_
    rw [values_merge, h]
    exact (Set.eq_univ_of_forall fun x => mem_values_singleton.2 (mem_allBlocks x)).symm
  rw [totalSize_eq_sum, hmerge]
  rfl

theorem totalSize_le (ranges : List (Range UInt64)) : totalSize ranges ≤ (values ranges).ncard := by
  by_cases h : values ranges = Set.univ
  · rw [totalSize_eq_maxWord h, h, ncard_univ_blocks]
    exact Nat.le_succ _
  · exact (totalSize_eq_ncard h).le

theorem totalSize_le_maxWord (ranges : List (Range UInt64)) : totalSize ranges ≤ maxWord := by
  by_cases h : values ranges = Set.univ
  · exact (totalSize_eq_maxWord h).le
  · exact (totalSize_eq_ncard h).trans_le (ncard_le_maxWord h)

end Backfill.Range
