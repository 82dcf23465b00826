import Backfill.Proofs.Range.Merge

/-!
# Difference and intersection

Cutting ascending holes out of a range, and clipping ranges to bounds, are exact on values and give
merged lists.
-/

namespace Backfill.Range

variable {α : Type} [Axis α]

/-! ## One hole -/

/-- What lies before a hole. -/
def beforeHole (current hole : Range α) : List (Range α) :=
  if Axis.before current.first hole.first then [⟨current.first, Axis.prev hole.first⟩] else []

/-- What lies after a hole, with further holes cut out. -/
def afterHole (current hole : Range α) (holes : List (Range α)) : List (Range α) :=
  if Axis.before hole.last current.last then cut ⟨Axis.next hole.last, current.last⟩ holes else []

theorem cut_cons_eq (current hole : Range α) (holes : List (Range α)) : cut current (hole :: holes) =
    if Axis.before current.last hole.first then [current]
    else if !current.overlaps hole then cut current holes
    else beforeHole current hole ++ afterHole current hole holes := by
  rw [cut, beforeHole, afterHole]
  by_cases hlast : Axis.before hole.last current.last = true <;> simp [hlast]

theorem cut_cons {current hole : Range α} {holes : List (Range α)} (hc : current.valid = true)
    (hh : hole.valid = true) :
    cut current (hole :: holes) =
      if Axis.rank current.last < Axis.rank hole.first then [current]
      else if Axis.rank hole.last < Axis.rank current.first then cut current holes
      else beforeHole current hole ++ afterHole current hole holes := by
  have hover : current.overlaps hole = true ↔
      ¬ Axis.rank current.last < Axis.rank hole.first ∧ ¬ Axis.rank hole.last < Axis.rank current.first := by
    simp only [overlaps, hc, hh, Bool.true_and, Bool.and_eq_true, decide_eq_true_eq, Axis.le_iff_rank]
    omega
  rw [cut_cons_eq]
  by_cases h₁ : Axis.rank current.last < Axis.rank hole.first
  · rw [if_pos ((Axis.before_iff _ _).2 h₁), if_pos h₁]
  · rw [if_neg (mt (Axis.before_iff _ _).1 h₁), if_neg h₁]
    by_cases h₂ : Axis.rank hole.last < Axis.rank current.first
    · have : (!current.overlaps hole) = true := by
        rw [Bool.not_eq_true', ← Bool.not_eq_true, hover]
        exact fun h => h.2 h₂
      rw [if_pos this, if_pos h₂]
    · have : ¬ (!current.overlaps hole) = true := by
        rw [Bool.not_eq_true', Bool.not_eq_false, hover]
        exact ⟨h₁, h₂⟩
      rw [if_neg this, if_neg h₂]

variable [DiscreteAxis α]

theorem mem_values_beforeHole {current hole : Range α} (h : Axis.rank hole.first ≤ Axis.rank current.last)
    {x : α} : x ∈ values (beforeHole current hole) ↔ x ∈ current ∧ Axis.rank x < Axis.rank hole.first := by
  unfold beforeHole
  simp only [Axis.before_iff]
  split
  · rename_i hlt
    have := rank_prev_of_lt hlt
    simp only [mem_values_cons, values_nil, Set.mem_empty_iff_false, or_false, mem_iff_rank]
    omega
  · simp only [values_nil, Set.mem_empty_iff_false, false_iff, mem_iff_rank]
    omega

theorem merged_beforeHole (current hole : Range α) : Merged (beforeHole current hole) := by
  unfold beforeHole
  simp only [Axis.before_iff]
  split
  · rename_i hlt
    have := rank_prev_of_lt hlt
    refine ⟨?_, List.pairwise_singleton _ _⟩
    simp only [List.mem_singleton, forall_eq, valid_iff_rank]
    omega
  · exact Merged.nil

theorem apart_of_mem_beforeHole {current hole p q : Range α} (hhole : hole.valid = true)
    (hp : p ∈ beforeHole current hole) (hq : Axis.rank hole.last < Axis.rank q.first) : Apart p q := by
  rw [valid_iff_rank] at hhole
  unfold beforeHole at hp
  simp only [Axis.before_iff] at hp
  split at hp
  · rename_i hlt
    rw [List.mem_singleton] at hp
    subst hp
    have := rank_next_prev hlt
    unfold Apart
    simp only at *
    omega
  · simp at hp

/-! ## Many holes -/

theorem values_cut {current : Range α} {holes : List (Range α)} (hc : current.valid = true)
    (hh : Merged holes) {x : α} : x ∈ values (cut current holes) ↔ x ∈ current ∧ x ∉ values holes := by
  induction holes generalizing current with
  | nil => simp [cut]
  | cons hole holes ih =>
      have hhole := hh.valid hole List.mem_cons_self
      have hfar : x ∈ values holes → Axis.rank hole.last < Axis.rank x := fun hx =>
        Int.lt_of_le_of_lt (rank_le_next _) (hh.next_last_lt hx)
      rw [cut_cons hc hhole, mem_values_cons]
      rw [valid_iff_rank] at hhole
      split
      · rename_i h
        rw [mem_values_cons, values_nil]
        simp only [Set.mem_empty_iff_false, or_false, mem_iff_rank]
        constructor
        · intro hx
          exact ⟨hx, by rintro (hx' | hx') <;> [skip; have := hfar hx'] <;> omega⟩
        · exact fun hx => hx.1
      · split
        · rename_i h
          rw [ih hc hh.tail]
          simp only [mem_iff_rank]
          constructor
          · intro hx
            exact ⟨hx.1, by rintro (hx' | hx') <;> [omega; exact hx.2 hx']⟩
          · exact fun hx => ⟨hx.1, fun hx' => hx.2 (Or.inr hx')⟩
        · rename_i h₁ h₂
          rw [values_append, Set.mem_union, mem_values_beforeHole (by omega)]
          unfold afterHole
          simp only [Axis.before_iff]
          split
          · rename_i hlt
            have hn := rank_next_of_lt hlt
            rw [ih (valid_iff_rank.2 (by simp only; omega)) hh.tail]
            simp only [mem_iff_rank]
            by_cases hx : x ∈ values holes
            · have := hfar hx
              simp only [hx, not_true_eq_false, and_false, or_false, or_true, iff_false]
              omega
            · simp only [hx, not_false_eq_true, and_true, or_false]
              omega
          · rename_i hlt
            simp only [values_nil, Set.mem_empty_iff_false, or_false, mem_iff_rank]
            constructor
            · intro hx
              exact ⟨hx.1, by rintro (hx' | hx') <;> [skip; have := hfar hx'] <;> omega⟩
            · intro hx
              exact ⟨hx.1, by by_contra; exact hx.2 (Or.inl (by omega))⟩

theorem merged_cut {current : Range α} {holes : List (Range α)} (hc : current.valid = true)
    (hh : Merged holes) : Merged (cut current holes) := by
  induction holes generalizing current with
  | nil => exact ⟨by simpa [cut] using hc, List.pairwise_singleton _ _⟩
  | cons hole holes ih =>
      have hhole := hh.valid hole List.mem_cons_self
      have hbefore := merged_beforeHole current hole
      rw [cut_cons hc hhole]
      split
      · exact ⟨by simpa using hc, List.pairwise_singleton _ _⟩
      · split
        · exact ih hc hh.tail
        · unfold afterHole
          simp only [Axis.before_iff]
          split
          · rename_i hlt
            have hn := rank_next_of_lt hlt
            have hrest : (⟨Axis.next hole.last, current.last⟩ : Range α).valid = true :=
              valid_iff_rank.2 (by simp only; omega)
            have hafter := ih hrest hh.tail
            refine ⟨List.forall_mem_append.2 ⟨hbefore.valid, hafter.valid⟩,
              List.pairwise_append.2 ⟨hbefore.apart, hafter.apart, fun p hp q hq => ?_⟩⟩
            -- the hole itself lies between `p` and `q`
            have hq' := ((values_cut hrest hh.tail).1 ⟨q, hq, first_mem (hafter.valid q hq)⟩).1
            rw [mem_iff_rank] at hq'
            exact apart_of_mem_beforeHole hhole hp (by simp only at hq'; omega)
          · rw [List.append_nil]
            exact hbefore

theorem mem_of_mem_cut {current p : Range α} {holes : List (Range α)} (hc : current.valid = true)
    (hh : Merged holes) (hp : p ∈ cut current holes) :
    Axis.rank current.first ≤ Axis.rank p.first ∧ Axis.rank p.last ≤ Axis.rank current.last := by
  have hpv := (merged_cut hc hh).valid p hp
  have hf := ((values_cut hc hh).1 ⟨p, hp, first_mem hpv⟩).1
  have hl := ((values_cut hc hh).1 ⟨p, hp, last_mem hpv⟩).1
  rw [mem_iff_rank] at hf hl
  exact ⟨hf.1, hl.2⟩

/-! ## Lists -/

theorem values_flatMap_cut {ranges holes : List (Range α)} (hr : ∀ r ∈ ranges, r.valid = true)
    (hh : Merged holes) {x : α} :
    x ∈ values (ranges.flatMap (cut · holes)) ↔ x ∈ values ranges ∧ x ∉ values holes := by
  induction ranges with
  | nil => simp
  | cons r ranges ih =>
      obtain ⟨hv, hr⟩ := List.forall_mem_cons.1 hr
      rw [List.flatMap_cons, values_append, Set.mem_union, values_cut hv hh, ih hr, mem_values_cons]
      tauto

@[simp] theorem values_exclude (ranges holes : List (Range α)) :
    values (exclude ranges holes) = values ranges \ values holes := by
  ext x
  unfold exclude
  rw [values_flatMap_cut (merged_merge ranges).valid (merged_merge holes), values_merge, values_merge]
  rfl

theorem merged_flatMap_cut {ranges holes : List (Range α)} (hr : Merged ranges) (hh : Merged holes) :
    Merged (ranges.flatMap (cut · holes)) := by
  induction ranges with
  | nil => exact Merged.nil
  | cons r ranges ih =>
      have hv := hr.valid r List.mem_cons_self
      have hcut := merged_cut hv hh
      have hrest := ih hr.tail
      rw [List.flatMap_cons]
      refine ⟨List.forall_mem_append.2 ⟨hcut.valid, hrest.valid⟩,
        List.pairwise_append.2 ⟨hcut.apart, hrest.apart, ?_⟩⟩
      intro p hp q hq
      have hp' := (mem_of_mem_cut hv hh hp).2
      have hq' := ((values_flatMap_cut hr.tail.valid hh).1 ⟨q, hq, first_mem (hrest.valid q hq)⟩).1
      have := hr.next_last_lt hq'
      have := rank_next_mono hp'
      unfold Apart
      omega

theorem merged_exclude (ranges holes : List (Range α)) : Merged (exclude ranges holes) :=
  merged_flatMap_cut (merged_merge ranges) (merged_merge holes)

@[simp] theorem exclude_nil (ranges : List (Range α)) : exclude ranges [] = merge ranges := by
  apply (merged_exclude _ _).ext (merged_merge _)
  simp

@[simp] theorem exclude_self (ranges : List (Range α)) : exclude ranges ranges = [] := by
  apply (merged_exclude _ _).eq_nil
  simp

theorem exclude_exclude (ranges a b : List (Range α)) :
    exclude (exclude ranges a) b = exclude ranges (a ++ b) := by
  apply (merged_exclude _ _).ext (merged_exclude _ _)
  simp [Set.sdiff_sdiff]

/-! ## Clipping -/

@[simp] theorem mem_values_clip {ranges : List (Range α)} {bounds : Range α} {x : α} :
    x ∈ values (clip ranges bounds) ↔ x ∈ values ranges ∧ x ∈ bounds := by
  unfold clip
  rw [values_merge]
  simp only [mem_values, List.mem_filterMap]
  constructor
  · rintro ⟨r, ⟨s, hs, hr⟩, hx⟩
    obtain ⟨hxs, hxb⟩ := mem_intersect?.1 ⟨r, hr, hx⟩
    exact ⟨⟨s, hs, hxs⟩, hxb⟩
  · rintro ⟨⟨s, hs, hxs⟩, hxb⟩
    obtain ⟨r, hr, hx⟩ := mem_intersect?.2 ⟨hxs, hxb⟩
    exact ⟨r, ⟨s, hs, hr⟩, hx⟩

theorem Merged.clip_eq {ranges : List (Range α)} (h : Merged ranges) {bounds : Range α}
    (hb : ∀ r ∈ ranges, ∀ x ∈ r, x ∈ bounds) : clip ranges bounds = ranges := by
  refine (merged_clip ranges bounds).ext h ?_
  ext x
  rw [mem_values_clip]
  exact ⟨fun hx => hx.1, fun hx => ⟨hx, hx.elim fun r hr => hb r hr.1 x hr.2⟩⟩

/-! ## Blocks -/

/-- Difference holds exactly the blocks of one list that the other one lacks, and clipping exactly those inside the
bounds; both give merged lists. So taking away nothing merges, taking away everything leaves nothing, and taking
away twice is taking away both at once. -/
theorem exclude_clip_exact (a b c : List (Range UInt64)) (w : Range UInt64) :
    values (exclude a b) = values a \ values b ∧
    values (clip a w) = values a ∩ {x | x ∈ w} ∧
    merge (exclude a b) = exclude a b ∧
    merge (clip a w) = clip a w ∧
    exclude a [] = merge a ∧
    exclude a a = [] ∧
    exclude (exclude a b) c = exclude a (b ++ c) := by
  refine ⟨values_exclude a b, ?_, (merged_exclude a b).merge_eq, (merged_clip a w).merge_eq, exclude_nil a,
    exclude_self a, exclude_exclude a b c⟩
  ext x
  exact mem_values_clip

end Backfill.Range
