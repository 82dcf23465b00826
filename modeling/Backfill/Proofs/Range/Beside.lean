import Backfill.Proofs.Range.Merge

/-!
# Axes whose steps leave out values

On such an axis merging keeps every value and adds those of gaps that a step leaps over. Cutting a hole leaves a
step's width on either side of it free, so of the values outside the hole only those beside it can be lost.
-/

namespace Backfill.Range

variable {α : Type} [Axis α]

/-- Outside the range, but closer to one of its ends than a step. -/
def Beside (r : Range α) (x : α) : Prop :=
  (Axis.rank (Axis.prev r.first) < Axis.rank x ∧ Axis.rank x < Axis.rank r.first) ∨
    (Axis.rank r.last < Axis.rank x ∧ Axis.rank x < Axis.rank (Axis.next r.last))

/-! ## Merging -/

theorem values_subset_joinFrom {current : Range α} {rest : List (Range α)} (h : Ascending (current :: rest)) :
    values (current :: rest) ⊆ values (joinFrom current rest) := by
  induction rest generalizing current with
  | nil => exact subset_rfl
  | cons s rest ih =>
      obtain ⟨hc, hs⟩ := List.pairwise_cons.1 h
      have hcs := hc s List.mem_cons_self
      intro x hx
      rw [mem_values_cons] at hx
      unfold joinFrom
      split
      · apply ih (ascending_joined h)
        rw [mem_values_cons] at hx ⊢
        rw [← or_assoc] at hx
        refine hx.imp_left fun hx => ?_
        simp only [mem_iff_rank, Axis.rank_later] at hx ⊢
        omega
      · rw [mem_values_cons]
        exact hx.imp_right fun hx => ih hs hx

theorem values_subset_merge (ranges : List (Range α)) : values ranges ⊆ values (merge ranges) := by
  have hp := ascending_sorted ranges
  rw [← values_sorted ranges]
  unfold merge
  cases hs : sorted ranges with
  | nil => exact subset_rfl
  | cons r rest =>
      rw [hs] at hp
      exact values_subset_joinFrom hp

theorem ends_of_mem_joinFrom {current r : Range α} {rest : List (Range α)} (hr : r ∈ joinFrom current rest) :
    (∃ s ∈ current :: rest, s.first = r.first) ∧ ∃ s ∈ current :: rest, s.last = r.last := by
  induction rest generalizing current with
  | nil =>
      obtain rfl := List.mem_singleton.1 hr
      exact ⟨⟨r, hr, rfl⟩, r, hr, rfl⟩
  | cons t rest ih =>
      unfold joinFrom at hr
      split at hr
      · obtain ⟨⟨a, ha, hfirst⟩, b, hb, hlast⟩ := ih hr
        simp only [List.mem_cons] at ha hb ⊢
        refine ⟨?_, ?_⟩
        · rcases ha with rfl | ha
          · exact ⟨current, Or.inl rfl, hfirst⟩
          · exact ⟨a, Or.inr (Or.inr ha), hfirst⟩
        · rcases hb with rfl | hb
          · -- the joined range ends where the later one of the two does
            rw [Axis.later] at hlast
            split at hlast
            · exact ⟨t, Or.inr (Or.inl rfl), hlast⟩
            · exact ⟨current, Or.inl rfl, hlast⟩
          · exact ⟨b, Or.inr (Or.inr hb), hlast⟩
      · rcases List.mem_cons.1 hr with rfl | hr
        · exact ⟨⟨r, List.mem_cons_self, rfl⟩, r, List.mem_cons_self, rfl⟩
        · obtain ⟨⟨a, ha, hfirst⟩, b, hb, hlast⟩ := ih hr
          exact ⟨⟨a, List.mem_cons_of_mem _ ha, hfirst⟩, b, List.mem_cons_of_mem _ hb, hlast⟩

/-- A merged range begins and ends where valid ranges of the list do. -/
theorem ends_of_mem_merge {ranges : List (Range α)} {r : Range α} (hr : r ∈ merge ranges) :
    (∃ s ∈ ranges, s.valid = true ∧ s.first = r.first) ∧ ∃ s ∈ ranges, s.valid = true ∧ s.last = r.last := by
  rw [merge] at hr
  cases hs : sorted ranges with
  | nil =>
      rw [hs] at hr
      cases hr
  | cons current rest =>
      rw [hs] at hr
      obtain ⟨⟨a, ha, hfirst⟩, b, hb, hlast⟩ := ends_of_mem_joinFrom hr
      rw [← hs, mem_sorted] at ha hb
      exact ⟨⟨a, ha.1, ha.2, hfirst⟩, b, hb.1, hb.2, hlast⟩

theorem exists_beside_of_merge {ranges : List (Range α)} {r : Range α} {x : α} (hr : r ∈ merge ranges)
    (hx : r.Beside x) : ∃ s ∈ ranges, s.valid = true ∧ s.Beside x := by
  obtain ⟨⟨a, ha, hav, hfirst⟩, b, hb, hbv, hlast⟩ := ends_of_mem_merge hr
  rcases hx with hx | hx
  · exact ⟨a, ha, hav, Or.inl (hfirst ▸ hx)⟩
  · exact ⟨b, hb, hbv, Or.inr (hlast ▸ hx)⟩

/-! ## Merging twice -/

section Twice

variable (hnext : ∀ a : α, Axis.rank a ≤ Axis.rank (Axis.next a))
include hnext

theorem Merged.sorted_eq_of_next {ranges : List (Range α)} (h : Merged ranges) : sorted ranges = ranges := by
  rw [sorted, List.filter_eq_self.2 h.valid]
  refine List.mergeSort_of_pairwise (h.apart.imp_of_mem ?_)
  intro a b ha hb hab
  have hav := valid_iff_rank.1 (h.valid a ha)
  have hbv := valid_iff_rank.1 (h.valid b hb)
  have hstep := hnext a.last
  rw [precedes_iff_rank]
  unfold Apart at hab
  omega

omit hnext in
theorem joinFrom_of_apart {current : Range α} {rest : List (Range α)} (h : (current :: rest).Pairwise Apart) :
    joinFrom current rest = current :: rest := by
  induction rest generalizing current with
  | nil => rfl
  | cons s rest ih =>
      obtain ⟨hc, hs⟩ := List.pairwise_cons.1 h
      have hgap : Apart current s := hc s List.mem_cons_self
      rw [joinFrom, if_neg, ih hs]
      rw [Axis.le_iff_rank]
      exact Int.not_le.2 hgap

/-- Where a step never goes back, a merged list stays as it is. -/
theorem Merged.merge_eq_of_next {ranges : List (Range α)} (h : Merged ranges) : merge ranges = ranges := by
  rw [merge, h.sorted_eq_of_next hnext]
  cases ranges with
  | nil => rfl
  | cons r rest => exact joinFrom_of_apart h.apart

end Twice

/-! ## Cutting -/

/-- What a hole does not hold stays, unless it lies beside the hole. -/
theorem mem_cut_or_beside {current : Range α} {holes : List (Range α)} {x : α} (hx : x ∈ current)
    (hout : x ∉ values holes) : x ∈ values (cut current holes) ∨ ∃ hole ∈ holes, hole.Beside x := by
  induction holes generalizing current with
  | nil => exact Or.inl (mem_values_singleton.2 hx)
  | cons hole holes ih =>
      rw [mem_values_cons, not_or] at hout
      obtain ⟨hhole, hout⟩ := hout
      have hlater : ∀ {rest : Range α}, x ∈ rest →
          x ∈ values (cut rest holes) ∨ ∃ h ∈ hole :: holes, h.Beside x := fun hrest =>
        (ih hrest hout).imp_right fun ⟨h, hh, hb⟩ => ⟨h, List.mem_cons_of_mem _ hh, hb⟩
      rw [cut]
      split
      · exact Or.inl (mem_values_singleton.2 hx)
      · split
        · exact hlater hx
        · rename_i hmeet
          rw [Bool.not_eq_true, Bool.not_eq_false', overlaps_iff] at hmeet
          obtain ⟨y, hyc, hyh⟩ := hmeet
          rw [mem_iff_rank] at hx hhole hyc hyh
          rcases lt_or_ge (Axis.rank x) (Axis.rank hole.first) with hlt | hge
          · rw [if_pos ((Axis.before_iff _ _).2 (Int.lt_of_le_of_lt hx.1 hlt))]
            rcases lt_or_ge (Axis.rank (Axis.prev hole.first)) (Axis.rank x) with hnear | hfar
            · exact Or.inr ⟨hole, List.mem_cons_self, Or.inl ⟨hnear, hlt⟩⟩
            · have hhead : x ∈ (⟨current.first, Axis.prev hole.first⟩ : Range α) := mem_iff_rank.2 ⟨hx.1, hfar⟩
              left
              split
              · exact mem_values_cons.2 (Or.inl hhead)
              · exact mem_values_singleton.2 hhead
          · have hlast : Axis.rank hole.last < Axis.rank x := by omega
            simp only [if_pos ((Axis.before_iff _ _).2 (Int.lt_of_lt_of_le hlast hx.2))]
            rcases lt_or_ge (Axis.rank x) (Axis.rank (Axis.next hole.last)) with hnear | hfar
            · exact Or.inr ⟨hole, List.mem_cons_self, Or.inr ⟨hlast, hnear⟩⟩
            · have htail : x ∈ (⟨Axis.next hole.last, current.last⟩ : Range α) := mem_iff_rank.2 ⟨hfar, hx.2⟩
              refine (hlater htail).imp_left fun hkept => ?_
              rw [values_append]
              exact Or.inr hkept

theorem mem_exclude_or_beside {ranges : List (Range α)} (holes : List (Range α)) {x : α} (hx : x ∈ values ranges) :
    x ∈ values (exclude ranges holes) ∨ x ∈ values (merge holes) ∨
      ∃ hole ∈ holes, hole.valid = true ∧ hole.Beside x := by
  by_cases hout : x ∈ values (merge holes)
  · exact Or.inr (Or.inl hout)
  · obtain ⟨r, hr, hx⟩ := values_subset_merge ranges hx
    rcases mem_cut_or_beside hx hout with ⟨s, hs, hx⟩ | ⟨hole, hhole, hbeside⟩
    · exact Or.inl ⟨s, List.mem_flatMap.2 ⟨r, hr, hs⟩, hx⟩
    · exact Or.inr (Or.inr (exists_beside_of_merge hhole hbeside))

end Backfill.Range
