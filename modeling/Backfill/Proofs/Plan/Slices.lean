import Backfill.Plan.Slices
import Backfill.Proofs.Range.Split

/-!
# Blobs hold what is missing

Fusing neighbours of a merged list keeps its order and adds exactly the values of the gaps that it bridges; so the
slices of blobs never overlap and hold all that they are made for, and beyond that only what lies in a small gap.
-/

namespace Backfill.Plan.Index

open Range (Below Merged Separate values)

variable {α : Type} [Axis α]

/-- Valid ranges, each after the one before. -/
structure Ordered (ranges : List (Range α)) : Prop where
  valid : ∀ r ∈ ranges, r.valid = true
  below : ranges.Pairwise Below

theorem Ordered.tail {r : Range α} {ranges : List (Range α)} (h : Ordered (r :: ranges)) : Ordered ranges :=
  ⟨fun s hs => h.valid s (List.mem_cons_of_mem r hs), (List.pairwise_cons.1 h.below).2⟩

theorem Ordered.bounds {a b : Range α} {rest : List (Range α)} (h : Ordered (a :: b :: rest)) :
    Axis.rank a.first ≤ Axis.rank a.last ∧ Axis.rank a.last < Axis.rank b.first ∧
      Axis.rank b.first ≤ Axis.rank b.last :=
  ⟨Range.valid_iff_rank.1 (h.valid a List.mem_cons_self), (List.pairwise_cons.1 h.below).1 b List.mem_cons_self,
    Range.valid_iff_rank.1 (h.valid b (List.mem_cons_of_mem _ List.mem_cons_self))⟩

theorem Ordered.fused {current r : Range α} {rest : List (Range α)} (h : Ordered (current :: r :: rest)) :
    Ordered (⟨current.first, r.last⟩ :: rest) := by
  have hb := h.bounds
  refine ⟨?_, List.pairwise_cons.2 ⟨?_, h.tail.tail.below⟩⟩
  · intro s hs
    rcases List.mem_cons.1 hs with rfl | hs
    · rw [Range.valid_iff_rank]
      show Axis.rank current.first ≤ Axis.rank r.last
      omega
    · exact h.tail.tail.valid s hs
  · intro s hs
    exact (List.pairwise_cons.1 h.tail.below).1 s hs

theorem first_le_of_mem_fuseFrom {gap : Nat} {current : Range α} {rest : List (Range α)}
    (h : Ordered (current :: rest)) {s : Range α} (hs : s ∈ fuseFrom gap current rest) :
    Axis.rank current.first ≤ Axis.rank s.first := by
  induction rest generalizing current with
  | nil =>
      obtain rfl := List.mem_singleton.1 hs
      exact Int.le_refl _
  | cons r rest ih =>
      rw [fuseFrom] at hs
      split at hs
      · have hfused := ih h.fused hs
        exact hfused
      · rcases List.mem_cons.1 hs with rfl | hs
        · exact Int.le_refl _
        · have hr := ih h.tail hs
          have hb := h.bounds
          omega

theorem below_fuseFrom {gap : Nat} {current : Range α} {rest : List (Range α)} (h : Ordered (current :: rest)) :
    (fuseFrom gap current rest).Pairwise Below := by
  induction rest generalizing current with
  | nil => exact List.pairwise_singleton _ _
  | cons r rest ih =>
      rw [fuseFrom]
      split
      · exact ih h.fused
      · refine List.pairwise_cons.2 ⟨fun s hs => ?_, ih h.tail⟩
        have hs := first_le_of_mem_fuseFrom h.tail hs
        have hb := h.bounds
        unfold Below
        omega

/-! ## Gaps -/

/-- The gap between two ranges is small enough for the two to be fused. -/
def Near (gap : Nat) (r s : Range α) : Prop := Axis.span (Axis.next r.last) (Axis.prev s.first) ≤ gap

/-- The values between two ranges. -/
def between (r s : Range α) : Set α := {x | Axis.rank r.last < Axis.rank x ∧ Axis.rank x < Axis.rank s.first}

/-- The values in the small gaps between neighbours. -/
def bridged (gap : Nat) (ranges : List (Range α)) : Set α :=
  {x | ∃ older r s newer, ranges = older ++ r :: s :: newer ∧ Near gap r s ∧ x ∈ between r s}

theorem not_mem_bridged_singleton {gap : Nat} {r : Range α} {x : α} : x ∉ bridged gap [r] := by
  rintro ⟨older, a, b, newer, heq, -⟩
  have hlength := congrArg List.length heq
  simp only [List.length_append, List.length_cons, List.length_nil] at hlength
  omega

theorem mem_bridged_cons {gap : Nat} {r s : Range α} {rest : List (Range α)} {x : α} :
    x ∈ bridged gap (r :: s :: rest) ↔ (Near gap r s ∧ x ∈ between r s) ∨ x ∈ bridged gap (s :: rest) := by
  constructor
  · rintro ⟨older, a, b, newer, heq, hnear, hx⟩
    cases older with
    | nil =>
        cases heq
        exact Or.inl ⟨hnear, hx⟩
    | cons o older =>
        obtain ⟨-, heq⟩ := List.cons.inj heq
        exact Or.inr ⟨older, a, b, newer, heq, hnear, hx⟩
  · rintro (⟨hnear, hx⟩ | ⟨older, a, b, newer, heq, hnear, hx⟩)
    · exact ⟨[], r, s, rest, rfl, hnear, hx⟩
    · exact ⟨r :: older, a, b, newer, by rw [heq, List.cons_append], hnear, hx⟩

/-- The gap after a range depends on nothing but where the range ends. -/
theorem mem_bridged_of_last {gap : Nat} {r s : Range α} (h : r.last = s.last) {rest : List (Range α)} {x : α} :
    x ∈ bridged gap (r :: rest) ↔ x ∈ bridged gap (s :: rest) := by
  cases rest with
  | nil => exact iff_of_false not_mem_bridged_singleton not_mem_bridged_singleton
  | cons t rest => rw [mem_bridged_cons, mem_bridged_cons, Near, Near, between, between, h]

theorem values_fuseFrom {gap : Nat} {current : Range α} {rest : List (Range α)} (h : Ordered (current :: rest)) :
    values (fuseFrom gap current rest) = values (current :: rest) ∪ bridged gap (current :: rest) := by
  induction rest generalizing current with
  | nil =>
      ext x
      simp [fuseFrom, not_mem_bridged_singleton]
  | cons r rest ih =>
      ext x
      rw [fuseFrom]
      split
      · rename_i hnear
        have hb := h.bounds
        -- the fused range is the two ranges and the gap between them
        have hfused : x ∈ (⟨current.first, r.last⟩ : Range α) ↔ x ∈ current ∨ x ∈ r ∨ x ∈ between current r := by
          simp only [Range.mem_iff_rank, between, Set.mem_ofPred_eq]
          omega
        have hlast : (⟨current.first, r.last⟩ : Range α).last = r.last := rfl
        simp only [ih h.fused, Range.mem_values_cons, Set.mem_union, hfused, mem_bridged_of_last hlast, mem_bridged_cons]
        have hnear : Near gap current r := hnear
        tauto
      · rename_i hfar
        have hfar : ¬ Near gap current r := hfar
        simp only [Range.mem_values_cons, Set.mem_union, ih h.tail, mem_bridged_cons]
        tauto

variable [DiscreteAxis α]

theorem ordered_of_merged {ranges : List (Range α)} (h : Merged ranges) : Ordered ranges := ⟨h.valid, h.below⟩

theorem below_blob (gap size : Nat) (needed : List (Range α)) :
    ((blob gap size).slices needed).Pairwise Below := by
  refine Range.below_splitAll ?_ size
  have hmerged := ordered_of_merged (Range.merged_merge needed)
  cases hm : Range.merge needed with
  | nil => exact .nil
  | cons r rest =>
      rw [hm] at hmerged
      exact below_fuseFrom hmerged

theorem separate_blob (gap size : Nat) (needed : List (Range α)) : Separate ((blob gap size).slices needed) :=
  (below_blob gap size needed).imp Below.overlaps_eq_false

theorem values_blob (gap size : Nat) (needed : List (Range α)) :
    values ((blob gap size).slices needed) = values needed ∪ bridged gap (Range.merge needed) := by
  rw [slices, Range.values_splitAll, ← Range.values_merge needed]
  have hmerged := ordered_of_merged (Range.merged_merge needed)
  cases hm : Range.merge needed with
  | nil =>
      ext x
      simp [fuse, bridged]
  | cons r rest =>
      rw [hm] at hmerged
      exact values_fuseFrom hmerged

theorem values_subset_blob (gap size : Nat) (needed : List (Range α)) :
    values needed ⊆ values ((blob gap size).slices needed) := by
  rw [values_blob]
  exact Set.subset_union_left

/-! ## Blocks -/

theorem near_iff_ncard {gap : Nat} {r s : Range UInt64} (h : Range.Apart r s) :
    Near gap r s ↔ {x | r.last < x ∧ x < s.first}.ncard ≤ gap := by
  have hnext := rank_next_of_lt h.below
  have hprev := rank_prev_of_lt h.below
  have hgap : {x | r.last < x ∧ x < s.first} = {x | x ∈ (⟨Axis.next r.last, Axis.prev s.first⟩ : Range UInt64)} := by
    ext x
    simp only [Set.mem_ofPred_eq, word_lt_iff_rank, Range.mem_iff_rank]
    omega
  -- a gap leaves out at least the two blocks beside it, so no span of one is cut off
  have hspan : Axis.span (Axis.next r.last) (Axis.prev s.first) = {x | r.last < x ∧ x < s.first}.ncard := by
    have hsize := Range.size_eq ⟨Axis.next r.last, Axis.prev s.first⟩
    rw [← hgap] at hsize
    have hcount := Range.ncard_blocks ⟨Axis.next r.last, Axis.prev s.first⟩
    rw [← hgap] at hcount
    have hlast := s.first.toNat_lt
    simp only [rank_word] at hnext hprev
    simp only [Range.size, maxWord] at hsize hcount
    omega
  rw [Near, hspan]

/-- The slices of blobs are valid and follow each other without overlaps, none holds more blocks than allowed (a size
of 0 counts as 1), and together they hold exactly the blocks that are missing and those of every gap between
neighbours of the merged missing ranges that is no wider than the limit. -/
theorem blob_slices_exact (gap size : Nat) (needed : List (Range UInt64)) :
    (∀ s ∈ (blob gap size).slices needed, s.valid = true ∧ {x | x ∈ s}.ncard ≤ max 1 size) ∧
    ((blob gap size).slices needed).Pairwise (fun r s => r.last < s.first) ∧
    ∀ x, x ∈ values ((blob gap size).slices needed) ↔ x ∈ values needed ∨
      ∃ older r s newer, Range.merge needed = older ++ r :: s :: newer ∧
        {y | r.last < y ∧ y < s.first}.ncard ≤ gap ∧ r.last < x ∧ x < s.first := by
  refine ⟨fun s hs => ?_, (below_blob gap size needed).imp word_lt_iff_rank.2, fun x => ?_⟩
  · obtain ⟨hv, hlength⟩ := Range.mem_splitAll hs
    exact ⟨hv, Nat.max_comm size 1 ▸ Range.ncard_blocks_le hlength⟩
  · rw [values_blob, Set.mem_union]
    refine or_congr_right (exists_congr fun older => exists_congr fun r => exists_congr fun s =>
      exists_congr fun newer => and_congr_right fun hm => ?_)
    have hapart := (Range.merged_merge needed).apart
    rw [hm] at hapart
    obtain ⟨-, htail, -⟩ := List.pairwise_append.1 hapart
    rw [near_iff_ncard ((List.pairwise_cons.1 htail).1 s List.mem_cons_self), word_lt_iff_rank, word_lt_iff_rank]
    rfl

/-- A gap of nine blocks is bridged when the limit is nine, and not when it is eight. -/
example : (blob 9 1000).slices [⟨20, 30⟩, ⟨1, 10⟩, ⟨5, 8⟩] = [(⟨1, 30⟩ : Range UInt64)] ∧
    (blob 8 1000).slices [⟨20, 30⟩, ⟨1, 10⟩, ⟨5, 8⟩] = [(⟨1, 10⟩ : Range UInt64), ⟨20, 30⟩] := by cbv

end Backfill.Plan.Index
