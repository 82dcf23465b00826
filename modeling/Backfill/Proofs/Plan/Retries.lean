import Backfill.Proofs.Plan.Caps
import Mathlib

/-!
# Retries wait for the newest pieces

A query that several entities share is one query of each of them, however many pieces it holds. So the
slices of a plan may leave room after all the pieces that the cap admits were served, and retries use that
room, though the cap has dropped older pieces before. What comes before every retry are the newest pieces,
as many as the cap admits; it is all that is missing just when the cap drops no piece.
-/

namespace Backfill.Plan

open Range (Merged Separate values)

section Turns

variable {α : Type} [Axis α] {cap used : Nat} {parts fresh : List (Range α)} {now got : List (List (Range α))}
  {slices : List (Range α)}

theorem Turn.values_eq_of_room (h : Turn cap used parts now) (hroom : used + now.length < cap) :
    values now.flatten = values parts := by
  cases h with
  | passed hno =>
      have : parts = [] := hno.resolve_left (by omega)
      rw [this, List.flatten_nil]
  | together _ _ => rw [List.flatten_singleton]
  | alone _ _ =>
      rw [List.length_map, List.length_take] at hroom
      rw [flatten_map_singleton, List.take_of_length_le (by omega)]
      exact Range.values_perm (List.reverse_perm parts)

/-- Slices that leave room give all that is missing there. -/
theorem Turns.values_eq_of_room [DiscreteAxis α] (h : Turns cap fresh used slices got)
    (hroom : used + got.length < cap) : values got.flatten = values fresh ∩ values slices := by
  induction h with
  | nil => simp
  | @cons used slice slices now later hturn _ ih =>
      rw [List.length_append] at hroom
      rw [List.flatten_append, Range.values_append, inter_values_cons, ih (by omega),
        hturn.values_eq_of_room (by omega)]

end Turns

/-! ## Pieces of what is missing -/

section Pieces

variable {ε α : Type} [Axis α]

/-- What the input misses, cut to the size of a query, oldest piece first. -/
def missingPieces (o : Options) (input : PlanInput ε α) : List (Range α) :=
  Range.splitAll (Range.exclude [input.full] (input.covered ++ Range.clip input.toRetry input.full))
    (max 1 o.maxRange)

/-- The pieces that the cap admits, newest first. -/
def newestPieces (o : Options) (input : PlanInput ε α) : List (Range α) :=
  (missingPieces o input).reverse.take o.maxQueries

variable [DiscreteAxis α] {o : Options} {input : PlanInput ε α} {asker : Asker ε α}

theorem values_missingPieces (o : Options) (input : PlanInput ε α) :
    values (missingPieces o input) = input.missing := by
  rw [missingPieces, Range.values_splitAll, values_exclude_full]

theorem separate_missingPieces (o : Options) (input : PlanInput ε α) : Separate (missingPieces o input) :=
  Range.separate_splitAll (Range.merged_exclude _ _).separate _

theorem values_fresh_eq_newestPieces (h : asker? o input = some asker) :
    values asker.fresh = values (newestPieces o input) := by
  rw [values_fresh_of_asker? h, Range.fresh_todo, (Range.merged_exclude _ _).takePieces_newestFirst, newestPieces,
    missingPieces]

/-- Slices that hold what the inputs miss hold what the index is asked for. -/
theorem values_requested_subset {inputs : List (PlanInput ε α)} {s : Set α}
    (h : ∀ input ∈ inputs, input.missing ⊆ s) : values (requested o inputs) ⊆ s := by
  rw [requested, Range.values_merge]
  rintro x ⟨r, hr, hx⟩
  obtain ⟨asker, ha, hr⟩ := List.mem_flatMap.1 hr
  obtain ⟨input, hin, ha⟩ := List.mem_filterMap.1 ha
  exact h input hin (values_fresh_subset ha ⟨r, hr, hx⟩)

theorem missing_subset_newestPieces_iff (o : Options) (input : PlanInput ε α) :
    input.missing ⊆ values (newestPieces o input) ↔ (missingPieces o input).length ≤ o.maxQueries := by
  rw [← values_missingPieces o]
  constructor
  · intro hsub
    by_contra hlong
    have hreverse : Separate (missingPieces o input).reverse :=
      (separate_missingPieces o input).perm (List.reverse_perm _).symm
    rw [← List.take_append_drop o.maxQueries (missingPieces o input).reverse] at hreverse
    obtain ⟨-, -, hdisj⟩ := Range.separate_append.1 hreverse
    -- the first dropped piece holds a block that no newer piece holds
    have hdrop : (missingPieces o input).reverse.drop o.maxQueries ≠ [] := by
      rw [Ne, List.drop_eq_nil_iff, List.length_reverse]
      exact hlong
    obtain ⟨p, hp⟩ := List.exists_mem_of_ne_nil _ hdrop
    have hpiece : p ∈ missingPieces o input := List.mem_reverse.1 (List.mem_of_mem_drop hp)
    have hfirst : p.first ∈ p := Range.first_mem (Range.mem_splitAll hpiece).1
    exact hdisj p.first (hsub ⟨p, hpiece, hfirst⟩) ⟨p, hp, hfirst⟩
  · intro hlen
    rw [newestPieces, List.take_of_length_le (by rw [List.length_reverse]; exact hlen),
      Range.values_perm (List.reverse_perm _)]

end Pieces

/-! ## What comes before a retry -/

section Retries

variable {ε α : Type} [Axis α] [DecidableEq α] [DiscreteAxis α] {o : Options} {index : Index α}
  {inputs : List (PlanInput ε α)} {input : PlanInput ε α} {who : ε → Bool}

/-- A plan that retries something for an input gives it just the newest pieces of what it misses. -/
theorem Only.missing_inter_given (h : Only who inputs input)
    (hcover : values (requested o inputs) ⊆ values (index.slices (requested o inputs)))
    (hretry : (input.failed ∩ values (given who (optimize o index inputs).queries)).Nonempty) :
    input.missing ∩ values (given who (optimize o index inputs).queries) = values (newestPieces o input) := by
  obtain ⟨x, hfailed, hx⟩ := hretry
  obtain ⟨asker, ha⟩ := exists_asker? (o := o) (Range.valid_of_mem hfailed.1)
  obtain ⟨got, hturns, hgiven⟩ := h.turns index ha
  have hsub : values got.flatten ⊆ input.missing :=
    fun y hy => values_fresh_subset ha (hturns.values_subset hy).1
  have hroom : 0 + got.length < o.maxQueries := by
    by_contra hfull
    rw [hgiven, show o.maxQueries - got.length = 0 by omega] at hx
    have hnone := Range.length_takePieces_le asker.retries (max 1 o.maxRange) 0 .newestFirst
    rw [List.eq_nil_of_length_eq_zero (Nat.le_zero.1 hnone), List.append_nil] at hx
    exact Set.disjoint_left.1 input.disjoint_missing_failed (hsub hx) hfailed
  have hslices : values asker.fresh ⊆
      values (orderedSlices (max 1 o.maxRange) index (inputs.filterMap (asker? o))) := fun y hy =>
    mem_values_orderedSlices _ (List.mem_filterMap.2 ⟨input, h.mem, ha⟩) hy
      (hcover (values_fresh_subset_requested h.mem ha hy))
  have hgot : values got.flatten = values (newestPieces o input) := by
    rw [hturns.values_eq_of_room hroom, Set.inter_eq_left.2 hslices, values_fresh_eq_newestPieces ha]
  rw [hgiven, Range.values_append, Set.inter_union_distrib_left, Set.inter_eq_right.2 hsub, hgot]
  refine Set.union_eq_left.2 ?_
  rintro y ⟨hmissing, hy⟩
  have hyf : y ∈ input.failed := values_retries ha ▸ Range.values_takePieces_subset _ _ _ _ hy
  exact absurd hyf (Set.disjoint_left.1 input.disjoint_missing_failed hmissing)

/-- When a plan retries something for the input at a place, it gives it of what it misses just the newest
pieces, as many as the cap on queries admits, and so all of it just when the cap admits all pieces. An entity
of one input gets what its place gets. -/
theorem retries_after_newest (o : Options) (index : Index α) (inputs : List (PlanInput ε α))
    (hcover : values (requested o inputs) ⊆ values (index.slices (requested o inputs))) {i : Nat}
    {input : PlanInput ε α} (hi : inputs[i]? = some input)
    (hretry : (input.failed ∩ values (givenAt o index inputs i)).Nonempty) :
    input.missing ∩ values (givenAt o index inputs i) = values (newestPieces o input) ∧
    (input.missing ⊆ values (givenAt o index inputs i) ↔ (missingPieces o input).length ≤ o.maxQueries) ∧
    ∀ who : ε → Bool, (∀ j other, inputs[j]? = some other → (who other.entity = true ↔ j = i)) →
      given who (optimize o index inputs).queries = givenAt o index inputs i := by
  rw [← requested_placed] at hcover
  have hnewest : input.missing ∩ values (givenAt o index inputs i) = values (newestPieces o input) :=
    (only_placed hi).missing_inter_given hcover hretry
  refine ⟨hnewest, ?_, fun who hwho => given_eq_givenAt hwho⟩
  rw [← missing_subset_newestPieces_iff, ← hnewest, Set.subset_inter_iff, and_iff_right subset_rfl]

end Retries

/-! ## A retry beside an older missing block -/

/-- Blocks 1, 3 and 5 were never fetched, and block 7 failed. -/
def patchyPool : PlanInput String UInt64 := ⟨"pool", ⟨1, 7⟩, [⟨2, 2⟩, ⟨4, 4⟩, ⟨6, 6⟩], [⟨7, 7⟩]⟩

/-- The whole of it is missing, and its query holds two blocks of the patchy one. -/
def freshVault : PlanInput String UInt64 := ⟨"vault", ⟨3, 5⟩, [], []⟩

/-- Blocks 3 and 5 come with the shared query, and the room beside it goes to block 7. -/
theorem givenAt_patchyPool :
    givenAt ⟨2, 10, 2⟩ (.fixed [⟨0, 9⟩]) [patchyPool, freshVault] 0 = [⟨3, 3⟩, ⟨5, 5⟩, ⟨7, 7⟩] := by
  cbv

theorem missing_subset_slice : ∀ input ∈ [patchyPool, freshVault], input.missing ⊆ values [⟨0, 9⟩] := by
  intro input hin x hx
  have hfull : (0 : UInt64) ≤ input.full.first ∧ input.full.last ≤ 9 := by
    simp only [List.mem_cons, List.not_mem_nil, or_false] at hin
    rcases hin with rfl | rfl <;> decide
  obtain ⟨hfirst, hlast⟩ := Range.mem_iff.1 hx.1
  exact Range.mem_values_singleton.2 (Range.mem_iff.2 ⟨UInt64.le_trans hfull.1 hfirst, UInt64.le_trans hlast hfull.2⟩)

theorem seven_retried : (7 : UInt64) ∈ patchyPool.failed ∩
    values (givenAt ⟨2, 10, 2⟩ (.fixed [⟨0, 9⟩]) [patchyPool, freshVault] 0) := by
  rw [givenAt_patchyPool]
  exact ⟨⟨by decide, by decide⟩, by decide⟩

theorem retries_after_newest_patchyPool :
    (patchyPool.failed ∩
      values (givenAt ⟨2, 10, 2⟩ (.fixed [⟨0, 9⟩]) [patchyPool, freshVault] 0)).Nonempty ∧
    patchyPool.missing ∩ values (givenAt ⟨2, 10, 2⟩ (.fixed [⟨0, 9⟩]) [patchyPool, freshVault] 0) =
      values [⟨5, 5⟩, ⟨3, 3⟩] := by
  have hpieces : newestPieces ⟨2, 10, 2⟩ patchyPool = [⟨5, 5⟩, ⟨3, 3⟩] := by cbv
  obtain ⟨hnewest, -, -⟩ := retries_after_newest ⟨2, 10, 2⟩ (.fixed [⟨0, 9⟩]) [patchyPool, freshVault] (i := 0)
    (values_requested_subset missing_subset_slice) rfl ⟨7, seven_retried⟩
  exact ⟨⟨7, seven_retried⟩, hpieces ▸ hnewest⟩

/-- The slice overlaps no other and holds all that the two inputs miss. Block 7 is retried, and block 1, which
never was fetched, is left out. -/
theorem retry_leaves_missing_block :
    Separate ((Index.fixed [⟨0, 9⟩]).slices (requested ⟨2, 10, 2⟩ [patchyPool, freshVault])) ∧
    (∀ input ∈ [patchyPool, freshVault], input.missing ⊆
      values ((Index.fixed [⟨0, 9⟩]).slices (requested ⟨2, 10, 2⟩ [patchyPool, freshVault]))) ∧
    (7 : UInt64) ∈ patchyPool.failed ∩
      values (givenAt ⟨2, 10, 2⟩ (.fixed [⟨0, 9⟩]) [patchyPool, freshVault] 0) ∧
    (1 : UInt64) ∈ patchyPool.missing ∧
    (1 : UInt64) ∉ values (givenAt ⟨2, 10, 2⟩ (.fixed [⟨0, 9⟩]) [patchyPool, freshVault] 0) := by
  refine ⟨List.pairwise_singleton _ _, missing_subset_slice, seven_retried, ⟨by decide, by decide, by decide⟩, ?_⟩
  rw [givenAt_patchyPool]
  decide

end Backfill.Plan
