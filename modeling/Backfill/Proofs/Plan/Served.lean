import Backfill.Proofs.Plan.Turns

/-!
# What the turns add up to

Over slices that do not overlap, the turns of an entity never give it the same value twice. As long as the
cap admits as many queries as there are values, nothing is left out; and whatever the cap, the first slice
that holds something missing gives something.
-/

namespace Backfill.Plan

open Range (Merged Separate values)

theorem flatten_map_singleton {β : Type} (xs : List β) : (xs.map ([·])).flatten = xs := by
  rw [← List.flatMap_def]
  exact List.flatMap_singleton' xs

variable {α : Type} {cap used : Nat} {parts fresh : List (Range α)} {now got : List (List (Range α))}
  {slices : List (Range α)}

/-! ## One turn -/

/-- A turn gives the last few of the parts, in this order or the reverse one. -/
theorem Turn.flatten_eq (h : Turn cap used parts now) :
    now.flatten = parts ∨ ∃ n, now.flatten = parts.reverse.take n := by
  cases h with
  | passed _ => exact .inr ⟨0, rfl⟩
  | together _ _ => exact .inl (List.flatten_singleton)
  | alone _ _ => exact .inr ⟨cap - used, flatten_map_singleton _⟩

theorem Turn.mem (h : Turn cap used parts now) {r : Range α} (hr : r ∈ now.flatten) : r ∈ parts := by
  rcases h.flatten_eq with heq | ⟨n, heq⟩
  · rwa [heq] at hr
  · rw [heq] at hr
    exact List.mem_reverse.1 (List.mem_of_mem_take hr)

theorem Turn.ne_nil (h : Turn cap used parts now) (hroom : used < cap) (hparts : parts ≠ []) : now ≠ [] := by
  cases h with
  | passed hno => exact absurd hno (by simp [hparts]; omega)
  | together _ _ => exact List.cons_ne_nil _ _
  | alone _ _ =>
      rw [Ne, List.map_eq_nil_iff, List.take_eq_nil_iff, List.reverse_eq_nil_iff]
      exact fun hno => hno.elim (by omega) hparts

theorem Turn.flatten_eq_nil_iff (h : Turn cap used parts now) : now.flatten = [] ↔ now = [] := by
  cases h with
  | passed _ => simp
  | together _ hne => simp [hne]
  | alone _ _ => rw [flatten_map_singleton, List.map_eq_nil_iff]

theorem Turn.add_length_le (h : Turn cap used parts now) (hroom : used ≤ cap) : used + now.length ≤ cap := by
  cases h with
  | passed _ => exact hroom
  | together hused _ => exact hused
  | alone _ _ =>
      rw [List.length_map, List.length_take]
      omega

variable [Axis α] [DiscreteAxis α]

theorem Turn.separate (h : Turn cap used parts now) (hparts : Merged parts) :
    Separate now.flatten := by
  rcases h.flatten_eq with heq | ⟨n, heq⟩
  · rw [heq]
    exact hparts.separate
  · rw [heq]
    exact List.Pairwise.take (hparts.separate.perm (List.reverse_perm parts).symm)

variable [Finite α]

theorem length_le_ncard_of_merged (h : Merged parts) : parts.length ≤ (values parts).ncard :=
  Range.length_le_ncard h.valid h.separate

theorem Turn.length_le (h : Turn cap used parts now) (hparts : Merged parts) :
    now.length ≤ (values parts).ncard := by
  have hlen := length_le_ncard_of_merged hparts
  cases h with
  | passed _ => exact Nat.zero_le _
  | together _ hne => exact (Nat.succ_le_of_lt (List.length_pos_iff.2 hne)).trans hlen
  | alone _ _ =>
      rw [List.length_map, List.length_take, List.length_reverse]
      omega

theorem Turn.values_eq (h : Turn cap used parts now) (hparts : Merged parts)
    (hcap : used + (values parts).ncard ≤ cap) : values now.flatten = values parts := by
  have hlen := length_le_ncard_of_merged hparts
  cases h with
  | passed hno =>
      have : parts = [] := by
        rcases hno with hno | hno
        · exact List.eq_nil_of_length_eq_zero (by omega)
        · exact hno
      rw [this, List.flatten_nil]
  | together _ _ => rw [List.flatten_singleton]
  | alone _ _ =>
      rw [flatten_map_singleton, List.take_of_length_le (by rw [List.length_reverse]; omega)]
      exact Range.values_perm (List.reverse_perm parts)

/-! ## All turns -/

omit [DiscreteAxis α] [Finite α] in
/-- No turn goes beyond the cap, whatever the slices. -/
theorem Turns.add_length_le (h : Turns cap fresh used slices got) (hroom : used ≤ cap) : used + got.length ≤ cap := by
  induction h with
  | nil => exact hroom
  | cons hturn _ ih =>
      have := ih (hturn.add_length_le hroom)
      rw [List.length_append]
      omega

omit [DiscreteAxis α] [Finite α] in
theorem Turns.mem (h : Turns cap fresh used slices got) {r : Range α} (hr : r ∈ got.flatten) :
    ∃ slice ∈ slices, r ∈ Range.clip fresh slice := by
  induction h with
  | nil => simp at hr
  | cons hturn _ ih =>
      rw [List.flatten_append, List.mem_append] at hr
      rcases hr with hr | hr
      · exact ⟨_, List.mem_cons_self, hturn.mem hr⟩
      · obtain ⟨slice, hs, hr⟩ := ih hr
        exact ⟨slice, List.mem_cons_of_mem _ hs, hr⟩

omit [Finite α] in
theorem Turns.values_subset (h : Turns cap fresh used slices got) :
    values got.flatten ⊆ values fresh ∩ values slices := by
  rintro x ⟨r, hr, hx⟩
  obtain ⟨slice, hs, hr⟩ := h.mem hr
  obtain ⟨hf, hxs⟩ := Range.mem_values_clip.1 ⟨r, hr, hx⟩
  exact ⟨hf, slice, hs, hxs⟩

omit [Finite α] in
theorem Turns.separate (h : Turns cap fresh used slices got) (hs : Separate slices) :
    Separate got.flatten := by
  induction h with
  | nil => exact .nil
  | @cons used slice slices now later hturn hturns ih =>
      obtain ⟨hslice, hs⟩ := List.pairwise_cons.1 hs
      rw [List.flatten_append, Range.separate_append]
      refine ⟨hturn.separate (Range.merged_clip fresh slice), ih hs, ?_⟩
      rintro x ⟨r, hr, hxr⟩ hlater
      obtain ⟨other, ho, hxo⟩ := (hturns.values_subset hlater).2
      have hxs : x ∈ slice := (Range.mem_values_clip.1 ⟨r, hturn.mem hr, hxr⟩).2
      exact Range.overlaps_eq_false_iff.1 (hslice other ho) x hxs hxo

omit [Finite α] in
theorem inter_values_cons (fresh : List (Range α)) (slice : Range α) (slices : List (Range α)) :
    values fresh ∩ values (slice :: slices) =
      values (Range.clip fresh slice) ∪ values fresh ∩ values slices := by
  ext x
  simp only [Set.mem_inter_iff, Range.mem_values_cons, Set.mem_union, Range.mem_values_clip]
  tauto

theorem ncard_inter_values_cons {fresh slices : List (Range α)} {slice : Range α}
    (hs : ∀ other ∈ slices, slice.overlaps other = false) :
    (values fresh ∩ values (slice :: slices)).ncard =
      (values (Range.clip fresh slice)).ncard + (values fresh ∩ values slices).ncard := by
  rw [inter_values_cons, Set.ncard_union_eq ?_ (Set.toFinite _) (Set.toFinite _)]
  rw [Set.disjoint_left]
  rintro x hx ⟨-, other, ho, hxo⟩
  exact Range.overlaps_eq_false_iff.1 (hs other ho) x (Range.mem_values_clip.1 hx).2 hxo

theorem Turns.length_le (h : Turns cap fresh used slices got)
    (hs : Separate slices) : got.length ≤ (values fresh ∩ values slices).ncard := by
  induction h with
  | nil => exact Nat.zero_le _
  | @cons used slice slices now later hturn _ ih =>
      obtain ⟨hslice, hs⟩ := List.pairwise_cons.1 hs
      rw [List.length_append, ncard_inter_values_cons hslice]
      exact Nat.add_le_add (hturn.length_le (Range.merged_clip fresh slice)) (ih hs)

theorem Turns.values_eq (h : Turns cap fresh used slices got)
    (hs : Separate slices)
    (hcap : used + (values fresh ∩ values slices).ncard ≤ cap) :
    values got.flatten = values fresh ∩ values slices := by
  induction h with
  | nil => simp
  | @cons used slice slices now later hturn _ ih =>
      obtain ⟨hslice, hs⟩ := List.pairwise_cons.1 hs
      rw [ncard_inter_values_cons hslice] at hcap
      have hlen := hturn.length_le (Range.merged_clip fresh slice)
      rw [List.flatten_append, Range.values_append, inter_values_cons, ih hs (by omega),
        hturn.values_eq (Range.merged_clip fresh slice) (by omega)]

omit [DiscreteAxis α] [Finite α] in
theorem Turns.flatten_ne_nil (h : Turns cap fresh used slices got) (hroom : used < cap) {slice : Range α}
    (hs : slice ∈ slices) (hparts : Range.clip fresh slice ≠ []) : got.flatten ≠ [] := by
  induction h with
  | nil => simp at hs
  | @cons used first slices now later hturn _ ih =>
      rw [List.flatten_append, Ne, List.append_eq_nil_iff, hturn.flatten_eq_nil_iff, not_and]
      intro hnow
      rcases List.mem_cons.1 hs with rfl | hs
      · exact absurd hnow (hturn.ne_nil hroom hparts)
      · rw [hnow, List.length_nil, Nat.add_zero] at ih
        exact ih hroom hs

omit [Finite α] in
theorem Turns.values_nonempty (h : Turns cap fresh used slices got) (hroom : used < cap)
    (hmissing : (values fresh ∩ values slices).Nonempty) : (values got.flatten).Nonempty := by
  obtain ⟨x, hx, slice, hs, hxs⟩ := hmissing
  have hclip : x ∈ values (Range.clip fresh slice) := Range.mem_values_clip.2 ⟨hx, hxs⟩
  have hparts : Range.clip fresh slice ≠ [] := by
    intro heq
    rw [heq, Range.values_nil] at hclip
    exact hclip
  obtain ⟨r, hr⟩ := List.exists_mem_of_ne_nil _ (h.flatten_ne_nil hroom hs hparts)
  obtain ⟨other, -, hro⟩ := h.mem hr
  exact ⟨r.first, r, hr, Range.first_mem ((Range.merged_clip fresh other).valid r hro)⟩

end Backfill.Plan
