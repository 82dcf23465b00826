import Backfill.Proofs.Range.Values

/-!
# Merged lists are canonical

Merging keeps the values of a list and leaves a gap between neighbours. On a discrete axis such a list is
determined by its values, so equal sets of values have equal merged lists. Difference and intersection
are exact on values and give merged lists.
-/

namespace Backfill.Range

variable {α : Type} [Axis α]

/-- All of one range comes before the other. -/
def Below (a b : Range α) : Prop := Axis.rank a.last < Axis.rank b.first

/-- A gap of at least one value lies between one range and the later other one. -/
def Apart (a b : Range α) : Prop := Axis.rank (Axis.next a.last) < Axis.rank b.first

/-- Valid ranges in ascending order with gaps between them. -/
structure Merged (ranges : List (Range α)) : Prop where
  valid : ∀ r ∈ ranges, r.valid = true
  apart : ranges.Pairwise Apart

theorem Merged.nil : Merged ([] : List (Range α)) := ⟨by simp, .nil⟩

theorem Merged.tail {r : Range α} {ranges : List (Range α)} (h : Merged (r :: ranges)) : Merged ranges :=
  ⟨fun s hs => h.valid s (List.mem_cons_of_mem r hs), (List.pairwise_cons.1 h.apart).2⟩

theorem Below.overlaps_eq_false {a b : Range α} (h : Below a b) : a.overlaps b = false := by
  rw [overlaps_eq_false_iff]
  intro x ha hb
  rw [mem_iff_rank] at ha hb
  unfold Below at h
  omega

/-- A merged list holds no value between its first range and the successor of that range's end. -/
theorem Merged.next_last_lt {r : Range α} {ranges : List (Range α)} (h : Merged (r :: ranges)) {x : α}
    (hx : x ∈ values ranges) : Axis.rank (Axis.next r.last) < Axis.rank x := by
  obtain ⟨s, hs, hx⟩ := hx
  have ha : Apart r s := (List.pairwise_cons.1 h.apart).1 s hs
  rw [mem_iff_rank] at hx
  unfold Apart at ha
  omega

/-! ## Sorting -/

/-- Ranges in the order of their first values. -/
def Ascending (ranges : List (Range α)) : Prop :=
  ranges.Pairwise fun a b => Axis.rank a.first ≤ Axis.rank b.first

theorem precedes_trans (a b c : Range α) (h₁ : a.precedes b = true) (h₂ : b.precedes c = true) :
    a.precedes c = true := by
  rw [precedes_iff_rank] at *
  omega

theorem precedes_total (a b : Range α) : (a.precedes b || b.precedes a) = true := by
  rw [Bool.or_eq_true, precedes_iff_rank, precedes_iff_rank]
  omega

theorem ascending_sorted (ranges : List (Range α)) : Ascending (sorted ranges) := by
  refine (List.pairwise_mergeSort precedes_trans precedes_total _).imp ?_
  intro a b h
  rw [precedes_iff_rank] at h
  omega

theorem mem_sorted {ranges : List (Range α)} {r : Range α} :
    r ∈ sorted ranges ↔ r ∈ ranges ∧ r.valid = true := by
  simp [sorted]

theorem values_sorted (ranges : List (Range α)) : values (sorted ranges) = values ranges := by
  ext x
  simp only [mem_values, mem_sorted]
  constructor
  · rintro ⟨r, hr, hx⟩
    exact ⟨r, hr.1, hx⟩
  · rintro ⟨r, hr, hx⟩
    exact ⟨r, ⟨hr, valid_of_mem hx⟩, hx⟩

/-! ## Joining -/

theorem ascending_joined {current s : Range α} {rest : List (Range α)} (h : Ascending (current :: s :: rest)) :
    Ascending (⟨current.first, Axis.later current.last s.last⟩ :: rest) := by
  obtain ⟨hc, hs⟩ := List.pairwise_cons.1 h
  exact List.pairwise_cons.2 ⟨fun t ht => hc t (List.mem_cons_of_mem s ht), (List.pairwise_cons.1 hs).2⟩

theorem valid_joined {current s : Range α} {rest : List (Range α)}
    (hv : ∀ r ∈ current :: s :: rest, r.valid = true) :
    ∀ r ∈ ⟨current.first, Axis.later current.last s.last⟩ :: rest, r.valid = true := by
  have hc := hv current List.mem_cons_self
  intro r hr
  rcases List.mem_cons.1 hr with rfl | hr
  · rw [valid_iff_rank] at hc ⊢
    simp only [Axis.rank_later]
    omega
  · exact hv r (by simp [hr])

theorem first_le_of_mem_joinFrom {current : Range α} {rest : List (Range α)} (h : Ascending (current :: rest)) :
    ∀ r ∈ joinFrom current rest, Axis.rank current.first ≤ Axis.rank r.first := by
  induction rest generalizing current with
  | nil => simp [joinFrom]
  | cons s rest ih =>
      obtain ⟨hc, hs⟩ := List.pairwise_cons.1 h
      intro r hr
      unfold joinFrom at hr
      split at hr
      · exact ih (ascending_joined h) r hr
      · rcases List.mem_cons.1 hr with rfl | hr
        · exact Int.le_refl _
        · exact Int.le_trans (hc s List.mem_cons_self) (ih hs r hr)

theorem merged_joinFrom {current : Range α} {rest : List (Range α)} (hv : ∀ r ∈ current :: rest, r.valid = true)
    (h : Ascending (current :: rest)) : Merged (joinFrom current rest) := by
  induction rest generalizing current with
  | nil => exact ⟨hv, List.pairwise_singleton _ _⟩
  | cons s rest ih =>
      have hs : Ascending (s :: rest) := (List.pairwise_cons.1 h).2
      unfold joinFrom
      split
      · exact ih (valid_joined hv) (ascending_joined h)
      · rename_i hgap
        rw [Axis.le_iff_rank] at hgap
        have hm := ih (fun r hr => hv r (List.mem_cons_of_mem current hr)) hs
        refine ⟨List.forall_mem_cons.2 ⟨hv current List.mem_cons_self, hm.valid⟩,
          List.pairwise_cons.2 ⟨?_, hm.apart⟩⟩
        intro r hr
        have := first_le_of_mem_joinFrom hs r hr
        unfold Apart
        omega

theorem merged_merge (ranges : List (Range α)) : Merged (merge ranges) := by
  have hv : ∀ r ∈ sorted ranges, r.valid = true := fun r hr => (mem_sorted.1 hr).2
  have hp := ascending_sorted ranges
  unfold merge
  cases hs : sorted ranges with
  | nil => exact Merged.nil
  | cons r rest =>
      rw [hs] at hv hp
      exact merged_joinFrom hv hp

theorem merged_clip (ranges : List (Range α)) (bounds : Range α) : Merged (clip ranges bounds) :=
  merged_merge _

variable [DiscreteAxis α]

theorem values_joinFrom {current : Range α} {rest : List (Range α)} (hv : ∀ r ∈ current :: rest, r.valid = true)
    (h : Ascending (current :: rest)) : values (joinFrom current rest) = values (current :: rest) := by
  induction rest generalizing current with
  | nil => rfl
  | cons s rest ih =>
      obtain ⟨hc, hs⟩ := List.pairwise_cons.1 h
      unfold joinFrom
      split
      · rename_i htouch
        rw [ih (valid_joined hv) (ascending_joined h)]
        ext x
        have hcs := hc s List.mem_cons_self
        have hcv := hv current List.mem_cons_self
        rw [valid_iff_rank] at hcv
        rw [Axis.le_iff_rank] at htouch
        -- a value past the end of `current` does not lie before its successor
        have hx : Axis.rank current.last < Axis.rank x → Axis.rank (Axis.next current.last) ≤ Axis.rank x :=
          rank_next_le
        simp only [mem_values_cons, mem_iff_rank, Axis.rank_later, ← or_assoc]
        refine or_congr_left ?_
        omega
      · ext x
        rw [mem_values_cons, mem_values_cons, ih (fun r hr => hv r (List.mem_cons_of_mem current hr)) hs]

@[simp] theorem values_merge (ranges : List (Range α)) : values (merge ranges) = values ranges := by
  have hv : ∀ r ∈ sorted ranges, r.valid = true := fun r hr => (mem_sorted.1 hr).2
  have hp := ascending_sorted ranges
  rw [← values_sorted ranges]
  unfold merge
  cases hs : sorted ranges with
  | nil => rfl
  | cons r rest =>
      rw [hs] at hv hp
      exact values_joinFrom hv hp

/-! ## Uniqueness -/

theorem Apart.below {a b : Range α} (h : Apart a b) : Below a b :=
  Int.lt_of_le_of_lt (rank_le_next a.last) h

theorem Merged.below {ranges : List (Range α)} (h : Merged ranges) : ranges.Pairwise Below :=
  h.apart.imp Apart.below

theorem Merged.separate {ranges : List (Range α)} (h : Merged ranges) : Separate ranges :=
  h.below.imp Below.overlaps_eq_false

/-- Between two neighbours lies a value that the list does not hold. -/
theorem Merged.exists_between {a b : List (Range α)} {r s : Range α} (h : Merged (a ++ r :: s :: b)) :
    ∃ x, Axis.rank r.last < Axis.rank x ∧ Axis.rank x < Axis.rank s.first ∧ x ∉ values (a ++ r :: s :: b) := by
  have hr := h.valid r (by simp)
  obtain ⟨-, htail, hearlier⟩ := List.pairwise_append.1 h.apart
  have hrest : Merged (r :: s :: b) := ⟨fun t ht => h.valid t (List.mem_append_right a ht), htail⟩
  have hgap : Apart r s := (List.pairwise_cons.1 htail).1 s List.mem_cons_self
  have hnext := rank_next_of_lt hgap.below
  refine ⟨Axis.next r.last, by omega, hgap, ?_⟩
  rw [values_append, Set.mem_union, mem_values_cons, mem_iff_rank]
  rw [valid_iff_rank] at hr
  rintro (⟨t, ht, hx⟩ | hx | hx)
  · have hbelow : Below t r := (hearlier t ht r List.mem_cons_self).below
    rw [mem_iff_rank] at hx
    unfold Below at hbelow
    omega
  · omega
  · exact Int.lt_irrefl _ (hrest.next_last_lt hx)

omit [DiscreteAxis α] in
theorem Merged.eq_nil {ranges : List (Range α)} (h : Merged ranges) (hv : values ranges = ∅) : ranges = [] := by
  rw [List.eq_nil_iff_forall_not_mem]
  intro r hr
  have hfirst : r.first ∈ values ranges := ⟨r, hr, first_mem (h.valid r hr)⟩
  rw [hv] at hfirst
  exact hfirst

theorem Merged.first_le {r : Range α} {ranges : List (Range α)} (h : Merged (r :: ranges)) {x : α}
    (hx : x ∈ values (r :: ranges)) : Axis.rank r.first ≤ Axis.rank x := by
  obtain ⟨s, hs, hx⟩ := hx
  rw [mem_iff_rank] at hx
  rcases List.mem_cons.1 hs with rfl | hs
  · exact hx.1
  · have hb : Below r s := (List.pairwise_cons.1 h.below).1 s hs
    have hr := h.valid r List.mem_cons_self
    rw [valid_iff_rank] at hr
    unfold Below at hb
    omega

theorem Merged.first_eq {r s : Range α} {as bs : List (Range α)} (ha : Merged (r :: as)) (hb : Merged (s :: bs))
    (h : values (r :: as) = values (s :: bs)) : r.first = s.first := by
  have hr : r.first ∈ values (s :: bs) := by
    rw [← h, mem_values_cons]
    exact Or.inl (first_mem (ha.valid r List.mem_cons_self))
  have hs : s.first ∈ values (r :: as) := by
    rw [h, mem_values_cons]
    exact Or.inl (first_mem (hb.valid s List.mem_cons_self))
  exact Axis.rank_inj _ _ (Int.le_antisymm (ha.first_le hs) (hb.first_le hr))

theorem Merged.last_le {r s : Range α} {as bs : List (Range α)} (ha : Merged (r :: as)) (hb : Merged (s :: bs))
    (h : values (r :: as) = values (s :: bs)) : Axis.rank s.last ≤ Axis.rank r.last := by
  by_contra hlt
  have hlt : Axis.rank r.last < Axis.rank s.last := by omega
  -- the successor of `r.last` lies in `s` and in no range of `r :: as`
  have hn := rank_next_of_lt hlt
  have hmem : Axis.next r.last ∈ values (r :: as) := by
    have hfirst := ha.first_eq hb h
    have hr := ha.valid r List.mem_cons_self
    rw [valid_iff_rank] at hr
    rw [h, mem_values_cons, mem_iff_rank, ← hfirst]
    left
    omega
  rw [mem_values_cons, mem_iff_rank] at hmem
  rcases hmem with hmem | hmem
  · omega
  · exact Int.lt_irrefl _ (ha.next_last_lt hmem)

theorem Merged.ext {a b : List (Range α)} (ha : Merged a) (hb : Merged b) (h : values a = values b) : a = b := by
  induction a generalizing b with
  | nil =>
      cases b with
      | nil => rfl
      | cons s bs =>
          have hs : s.first ∈ values (s :: bs) :=
            mem_values_cons.2 (Or.inl (first_mem (hb.valid s List.mem_cons_self)))
          rw [← h, values_nil] at hs
          exact hs.elim
  | cons r as ih =>
      cases b with
      | nil =>
          have hr : r.first ∈ values (r :: as) :=
            mem_values_cons.2 (Or.inl (first_mem (ha.valid r List.mem_cons_self)))
          rw [h, values_nil] at hr
          exact hr.elim
      | cons s bs =>
          have hrs : r = s := by
            have hfirst := ha.first_eq hb h
            have hlast := Axis.rank_inj _ _ (Int.le_antisymm (hb.last_le ha h.symm) (ha.last_le hb h))
            cases r
            cases s
            simp_all
          subst hrs
          rw [ih ha.tail hb.tail]
          ext x
          have hx : x ∈ values (r :: as) ↔ x ∈ values (r :: bs) := by rw [h]
          rw [mem_values_cons, mem_values_cons] at hx
          have hout : ∀ {cs : List (Range α)}, Merged (r :: cs) → x ∈ values cs → x ∉ r := by
            intro cs hc hxc hxr
            have hl := hc.next_last_lt hxc
            have hn := rank_le_next r.last
            rw [mem_iff_rank] at hxr
            omega
          exact ⟨fun hxa => (hx.1 (Or.inr hxa)).resolve_left (hout ha hxa),
            fun hxb => (hx.2 (Or.inr hxb)).resolve_left (hout hb hxb)⟩

theorem merge_eq_iff {a b : List (Range α)} : merge a = merge b ↔ values a = values b := by
  constructor
  · intro h
    rw [← values_merge a, h, values_merge]
  · intro h
    exact (merged_merge a).ext (merged_merge b) (by rw [values_merge, values_merge, h])

theorem Merged.merge_eq {ranges : List (Range α)} (h : Merged ranges) : merge ranges = ranges :=
  (merged_merge ranges).ext h (values_merge ranges)

/-! ## Blocks -/

/-- A merged list holds the blocks of the valid ranges and no others, in valid ranges with a missing block between
neighbours. It depends on nothing but these blocks: lists merge to the same list exactly when they hold the same
blocks, so merging again, another order and repeated ranges make no difference. -/
theorem merge_canonical (a b : List (Range UInt64)) :
    values (merge a) = {x | ∃ r ∈ a, r.valid = true ∧ x ∈ r} ∧
    (∀ r ∈ merge a, r.valid = true) ∧
    (∀ older r s newer, merge a = older ++ r :: s :: newer →
      ∃ x, r.last < x ∧ x < s.first ∧ x ∉ values (merge a)) ∧
    (merge a = merge b ↔ values a = values b) ∧
    merge (merge a) = merge a ∧
    (a ⊆ b → b ⊆ a → merge a = merge b) := by
  have hmerged := merged_merge a
  refine ⟨?_, hmerged.valid, ?_, merge_eq_iff, hmerged.merge_eq, ?_⟩
  · ext x
    rw [values_merge]
    constructor
    · rintro ⟨r, hr, hx⟩
      exact ⟨r, hr, valid_of_mem hx, hx⟩
    · rintro ⟨r, hr, -, hx⟩
      exact ⟨r, hr, hx⟩
  · intro older r s newer heq
    rw [heq] at hmerged ⊢
    obtain ⟨x, hr, hs, hx⟩ := hmerged.exists_between
    exact ⟨x, word_lt_iff_rank.2 hr, word_lt_iff_rank.2 hs, hx⟩
  · intro hab hba
    exact merge_eq_iff.2 (Set.Subset.antisymm (values_subset hab) (values_subset hba))

end Backfill.Range
