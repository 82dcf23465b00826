import Backfill.Range.Merge
import Backfill.Proofs.Axis

/-!
# The values of ranges

A list of ranges stands for the set of values that lie in one of them. Inverted ranges hold none.
-/

namespace Backfill.Range

variable {α : Type} [Axis α]

/-- The values that lie in some range of a list. -/
def values (ranges : List (Range α)) : Set α := {x | ∃ r ∈ ranges, x ∈ r}

theorem mem_values {ranges : List (Range α)} {x : α} : x ∈ values ranges ↔ ∃ r ∈ ranges, x ∈ r := Iff.rfl

@[simp] theorem values_nil : values ([] : List (Range α)) = ∅ := by
  ext x
  simp [mem_values]

@[simp] theorem values_append (a b : List (Range α)) : values (a ++ b) = values a ∪ values b := by
  ext x
  simp [mem_values, or_and_right, exists_or]

@[simp] theorem mem_values_cons {r : Range α} {ranges : List (Range α)} {x : α} :
    x ∈ values (r :: ranges) ↔ x ∈ r ∨ x ∈ values ranges := by
  simp [mem_values]

instance (x : α) (r : Range α) : Decidable (x ∈ r) := decidable_of_iff _ contains_iff_mem

instance (x : α) (ranges : List (Range α)) : Decidable (x ∈ values ranges) :=
  inferInstanceAs (Decidable (∃ r ∈ ranges, x ∈ r))

theorem mem_values_singleton {r : Range α} {x : α} : x ∈ values [r] ↔ x ∈ r := by
  simp

theorem values_subset {a b : List (Range α)} (h : a ⊆ b) : values a ⊆ values b := by
  rintro x ⟨r, hr, hx⟩
  exact ⟨r, h hr, hx⟩

theorem values_perm {a b : List (Range α)} (h : a.Perm b) : values a = values b :=
  Set.Subset.antisymm (values_subset h.subset) (values_subset h.symm.subset)

/-! ## Ranks -/

theorem mem_iff_rank {r : Range α} {x : α} :
    x ∈ r ↔ Axis.rank r.first ≤ Axis.rank x ∧ Axis.rank x ≤ Axis.rank r.last := by
  rw [mem_iff, Axis.le_iff_rank, Axis.le_iff_rank]

theorem valid_iff_rank {r : Range α} : r.valid = true ↔ Axis.rank r.first ≤ Axis.rank r.last := by
  rw [valid, decide_eq_true_eq, Axis.le_iff_rank]

theorem first_mem {r : Range α} (h : r.valid = true) : r.first ∈ r := by
  rw [valid_iff_rank] at h
  exact mem_iff_rank.2 ⟨Int.le_refl _, h⟩

theorem last_mem {r : Range α} (h : r.valid = true) : r.last ∈ r := by
  rw [valid_iff_rank] at h
  exact mem_iff_rank.2 ⟨h, Int.le_refl _⟩

theorem valid_of_mem {r : Range α} {x : α} (h : x ∈ r) : r.valid = true := by
  rw [mem_iff_rank] at h
  exact valid_iff_rank.2 (by omega)

theorem precedes_iff_rank {a b : Range α} : a.precedes b = true ↔
    Axis.rank a.first < Axis.rank b.first ∨
      (Axis.rank a.first ≤ Axis.rank b.first ∧ Axis.rank a.last ≤ Axis.rank b.last) := by
  simp [precedes, Axis.before_iff, Axis.le_iff_rank]

/-! ## Common values -/

theorem mem_intersect? {a b : Range α} {x : α} : (∃ r, a.intersect? b = some r ∧ x ∈ r) ↔ x ∈ a ∧ x ∈ b := by
  simp only [intersect?, overlaps, Bool.and_eq_true, valid_iff_rank, decide_eq_true_eq,
    Axis.le_iff_rank, mem_iff_rank]
  constructor
  · rintro ⟨r, hr, hx⟩
    split at hr
    · cases hr
      simp only [Axis.rank_later, Axis.rank_earlier] at hx
      omega
    · cases hr
  · rintro ⟨ha, hb⟩
    refine ⟨_, if_pos (by omega), ?_⟩
    simp only [Axis.rank_later, Axis.rank_earlier]
    omega

theorem overlaps_iff {a b : Range α} : a.overlaps b = true ↔ ∃ x, x ∈ a ∧ x ∈ b := by
  constructor
  · intro h
    have hi : a.intersect? b = some ⟨Axis.later a.first b.first, Axis.earlier a.last b.last⟩ := by
      simp [intersect?, h]
    simp only [overlaps, Bool.and_eq_true, valid_iff_rank, decide_eq_true_eq, Axis.le_iff_rank] at h
    refine ⟨_, mem_intersect?.1 ⟨_, hi, first_mem (valid_iff_rank.2 ?_)⟩⟩
    simp only [Axis.rank_later, Axis.rank_earlier]
    omega
  · rintro ⟨x, ha, hb⟩
    obtain ⟨r, hr, _⟩ := mem_intersect?.2 ⟨ha, hb⟩
    by_contra h
    simp [intersect?, h] at hr

theorem overlaps_eq_false_iff {a b : Range α} : a.overlaps b = false ↔ ∀ x ∈ a, x ∉ b := by
  rw [← Bool.not_eq_true, overlaps_iff]
  simp

/-! ## Hulls -/

theorem overlaps_comm (a b : Range α) : a.overlaps b = b.overlaps a := by
  rw [Bool.eq_iff_iff, overlaps_iff, overlaps_iff]
  simp only [and_comm]

/-- No two of the ranges share a value. -/
abbrev Separate (ranges : List (Range α)) : Prop := ranges.Pairwise fun a b => a.overlaps b = false

theorem Separate.perm {a b : List (Range α)} (h : Separate a) (hp : a.Perm b) : Separate b :=
  (hp.pairwise_iff fun {x y} hxy => (overlaps_comm y x).trans hxy).1 h

theorem separate_append {a b : List (Range α)} :
    Separate (a ++ b) ↔ Separate a ∧ Separate b ∧ ∀ x ∈ values a, x ∉ values b := by
  refine List.pairwise_append.trans (and_congr_right fun _ => and_congr_right fun _ => ?_)
  constructor
  · rintro h x ⟨r, hr, hxr⟩ ⟨s, hs, hxs⟩
    exact overlaps_eq_false_iff.1 (h r hr s hs) x hxr hxs
  · intro h r hr s hs
    rw [overlaps_eq_false_iff]
    exact fun x hxr hxs => h x ⟨r, hr, hxr⟩ ⟨s, hs, hxs⟩

theorem foldl_hull (rest : List (Range α)) (h : Range α) (r : Range α) (hr : r = h ∨ r ∈ rest) :
    let hull : Range α :=
      rest.foldl (fun h r => ⟨Axis.earlier h.first r.first, Axis.later h.last r.last⟩) h
    Axis.rank hull.first ≤ Axis.rank r.first ∧ Axis.rank r.last ≤ Axis.rank hull.last := by
  induction rest generalizing h r with
  | nil =>
      simp only [List.not_mem_nil, or_false] at hr
      subst hr
      exact ⟨Int.le_refl _, Int.le_refl _⟩
  | cons s rest ih =>
      simp only [List.foldl_cons]
      rcases hr with rfl | hr
      · have := ih ⟨Axis.earlier r.first s.first, Axis.later r.last s.last⟩ _ (Or.inl rfl)
        simp only [Axis.rank_earlier, Axis.rank_later] at this ⊢
        omega
      · rcases List.mem_cons.1 hr with rfl | hr
        · have := ih ⟨Axis.earlier h.first r.first, Axis.later h.last r.last⟩ _ (Or.inl rfl)
          simp only [Axis.rank_earlier, Axis.rank_later] at this ⊢
          omega
        · exact ih _ r (Or.inr hr)

theorem mem_of_hull? {ranges : List (Range α)} {hull r : Range α} (h : hull? ranges = some hull)
    (hr : r ∈ ranges) {x : α} (hx : x ∈ r) : x ∈ hull := by
  cases ranges with
  | nil => simp [hull?] at h
  | cons s rest =>
      simp only [hull?, Option.some.injEq] at h
      subst h
      have := foldl_hull rest s r (List.mem_cons.1 hr)
      rw [mem_iff_rank] at hx ⊢
      simp only at this
      omega

theorem ends_foldl_hull (rest : List (Range α)) (h : Range α) :
    let hull : Range α :=
      rest.foldl (fun h r => ⟨Axis.earlier h.first r.first, Axis.later h.last r.last⟩) h
    (∃ r ∈ h :: rest, hull.first = r.first) ∧ ∃ r ∈ h :: rest, hull.last = r.last := by
  induction rest generalizing h with
  | nil => exact ⟨⟨h, List.mem_cons_self, rfl⟩, h, List.mem_cons_self, rfl⟩
  | cons s rest ih =>
      obtain ⟨⟨a, ha, hfirst⟩, b, hb, hlast⟩ := ih ⟨Axis.earlier h.first s.first, Axis.later h.last s.last⟩
      simp only [List.foldl_cons, List.mem_cons] at ha hb ⊢
      -- the hull of the first two takes either end from one of them
      refine ⟨?_, ?_⟩
      · rcases ha with rfl | ha
        · rw [hfirst, Axis.earlier]
          split
          · exact ⟨h, Or.inl rfl, rfl⟩
          · exact ⟨s, Or.inr (Or.inl rfl), rfl⟩
        · exact ⟨a, Or.inr (Or.inr ha), hfirst⟩
      · rcases hb with rfl | hb
        · rw [hlast, Axis.later]
          split
          · exact ⟨s, Or.inr (Or.inl rfl), rfl⟩
          · exact ⟨h, Or.inl rfl, rfl⟩
        · exact ⟨b, Or.inr (Or.inr hb), hlast⟩

/-- A hull begins and ends where ranges in it do. -/
theorem ends_of_hull? {ranges : List (Range α)} {hull : Range α} (h : hull? ranges = some hull) :
    (∃ r ∈ ranges, hull.first = r.first) ∧ ∃ r ∈ ranges, hull.last = r.last := by
  cases ranges with
  | nil => simp [hull?] at h
  | cons s rest =>
      simp only [hull?, Option.some.injEq] at h
      subst h
      exact ends_foldl_hull rest s

end Backfill.Range
