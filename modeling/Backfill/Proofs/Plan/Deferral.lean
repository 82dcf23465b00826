import Backfill.Proofs.Plan.Newest

/-!
# What a cap defers is the oldest

A cap on queries cuts twice: the planner asks for no more pieces than the cap admits, and the slices serve no more
queries than that. The pieces are cut by size and the queries by slices, but either cut goes from the newest end
downwards and stops once. So what an input gets of what it misses is the later part of what the slices hold of it.
-/

namespace Backfill.Plan

open Range (Below KeepsLater Merged Separate values)

variable {α : Type} [Axis α] [DiscreteAxis α]

/-! ## Turns -/

section Turns

variable {cap used : Nat} {parts fresh : List (Range α)} {now got : List (List (Range α))} {slices : List (Range α)}

theorem Turn.keepsLater (h : Turn cap used parts now) (hparts : Merged parts) :
    KeepsLater (values now.flatten) (values parts) := by
  rcases h.flatten_eq with heq | ⟨n, heq⟩
  · rw [heq]
    exact fun _ _ y hy _ => hy
  · rw [heq]
    exact Range.keepsLater_take_reverse hparts.below n

/-- Slices that come one below the other give the later part of what is missing in them: a slice that gives
something was reached with room, and then every slice before it gave all. -/
theorem Turns.keepsLater (h : Turns cap fresh used slices got) (hroom : used ≤ cap)
    (hdown : slices.Pairwise fun s t => Below t s) :
    KeepsLater (values got.flatten) (values fresh ∩ values slices) := by
  induction h with
  | nil =>
      intro x hx
      rw [List.flatten_nil, Range.values_nil] at hx
      exact absurd hx (Set.notMem_empty x)
  | @cons used slice slices now later hturn hturns ih =>
      obtain ⟨hslice, hdown⟩ := List.pairwise_cons.1 hdown
      have hnow := hturn.add_length_le hroom
      rw [List.flatten_append, Range.values_append, inter_values_cons]
      rintro x (hx | hx) y (hy | hy) hlt
      · exact Or.inl (hturn.keepsLater (Range.merged_clip fresh slice) x hx y hy hlt)
      · -- `x` lies in this slice, and `y` in one below it
        obtain ⟨r, hr, hxr⟩ := hx
        have hxs := (Range.mem_values_clip.1 ⟨r, hturn.mem hr, hxr⟩).2
        obtain ⟨-, other, hother, hyo⟩ := hy
        have hbelow : Below other slice := hslice other hother
        rw [Range.mem_iff_rank] at hxs hyo
        unfold Below at hbelow
        omega
      · have hlater : 0 < later.length := by
          refine List.length_pos_iff.2 fun hnil => ?_
          rw [hnil, List.flatten_nil, Range.values_nil] at hx
          exact hx
        have hcap := hturns.add_length_le hnow
        rw [hturn.values_eq_of_room (by omega)]
        exact Or.inl hy
      · exact Or.inr (ih hnow hdown x hx y hy hlt)

end Turns

/-! ## Plans -/

variable {ε : Type} {o : Options} {index : Index α} {inputs : List (PlanInput ε α)} {input : PlanInput ε α}

variable [DecidableEq α] {who : ε → Bool}

theorem Only.keepsLater (h : Only who inputs input) (hs : Separate (index.slices (requested o inputs))) :
    KeepsLater (input.missing ∩ values (given who (optimize o index inputs).queries))
      (input.missing ∩ values (index.slices (requested o inputs))) := by
  rintro x ⟨hxm, hx⟩ y ⟨hym, hy⟩ hlt
  obtain ⟨asker, ha⟩ := exists_asker? (o := o) (Range.valid_of_mem hxm.1)
  obtain ⟨got, hturns, hgiven⟩ := h.turns index ha
  rw [hgiven, Range.values_append] at hx ⊢
  -- a missing value is no retry, so a slice gave it
  have hxgot : x ∈ values got.flatten := by
    refine hx.resolve_right fun hretry => ?_
    have hfailed : x ∈ input.failed := values_retries ha ▸ Range.values_takePieces_subset _ _ _ _ hretry
    exact Set.disjoint_left.1 input.disjoint_missing_failed hxm hfailed
  have hyfresh := keepsLater_fresh ha x (hturns.values_subset hxgot).1 y hym hlt
  have hyslices := mem_values_orderedSlices (max 1 o.maxRange) (List.mem_filterMap.2 ⟨input, h.mem, ha⟩) hyfresh hy
  exact ⟨hym, Or.inl (hturns.keepsLater (Nat.zero_le _) (below_orderedSlices hs _) x hxgot y ⟨hyfresh, hyslices⟩ hlt)⟩

/-- When a plan serves the input at a place a block that it misses, it serves it every later one that it misses and
some slice holds; so whatever the caps leave out of what it misses in the slices is older than all that it gets of
it. An entity of one input gets what its place gets. -/
theorem cap_defers_oldest (o : Options) (index : Index UInt64) (inputs : List (PlanInput ε UInt64))
    (hs : Separate (index.slices (requested o inputs))) {i : Nat} {input : PlanInput ε UInt64}
    (hi : inputs[i]? = some input) :
    (∀ x ∈ input.missing, x ∈ values (givenAt o index inputs i) →
      ∀ y ∈ input.missing, y ∈ values (index.slices (requested o inputs)) →
        (x < y → y ∈ values (givenAt o index inputs i)) ∧ (y ∉ values (givenAt o index inputs i) → y < x)) ∧
    ∀ who : ε → Bool, (∀ j other, inputs[j]? = some other → (who other.entity = true ↔ j = i)) →
      given who (optimize o index inputs).queries = givenAt o index inputs i := by
  rw [← requested_placed] at hs ⊢
  have hkeeps := (only_placed hi).keepsLater hs
  refine ⟨fun x hxm hx y hym hy => ?_, fun who hwho => given_eq_givenAt hwho⟩
  have hlater : x < y → y ∈ values (givenAt o index inputs i) := fun hlt =>
    (hkeeps x ⟨hxm, hx⟩ y ⟨hym, hy⟩ (by rw [rank_word, rank_word, Int.ofNat_lt]; exact UInt64.lt_iff_toNat_lt.1 hlt)).2
  refine ⟨hlater, fun hnot => ?_⟩
  rcases UInt64.lt_or_le y x with hlt | hle
  · exact hlt
  · rcases UInt64.le_iff_lt_or_eq.1 hle with hlt | rfl
    · exact absurd (hlater hlt) hnot
    · exact absurd hx hnot

/-- Three blocks of which the cap admits two. -/
def threeBlocks : PlanInput String UInt64 := ⟨"pool", ⟨5, 7⟩, [], []⟩

/-- Blocks 7 and 6 are served one by one, and block 5 is deferred. -/
theorem cap_defers_oldest_threeBlocks :
    Separate ((Index.fixed [⟨0, 9⟩]).slices (requested ⟨1, 1, 2⟩ [threeBlocks])) ∧
    6 ∈ threeBlocks.missing ∧ 6 ∈ values (givenAt ⟨1, 1, 2⟩ (.fixed [⟨0, 9⟩]) [threeBlocks] 0) ∧
    7 ∈ values (givenAt ⟨1, 1, 2⟩ (.fixed [⟨0, 9⟩]) [threeBlocks] 0) ∧
    5 ∈ threeBlocks.missing ∧ 5 ∉ values (givenAt ⟨1, 1, 2⟩ (.fixed [⟨0, 9⟩]) [threeBlocks] 0) ∧
    (5 : UInt64) < 6 := by
  have hs : Separate ((Index.fixed [⟨0, 9⟩]).slices (requested ⟨1, 1, 2⟩ [threeBlocks])) :=
    List.pairwise_singleton _ _
  have hgiven : givenAt ⟨1, 1, 2⟩ (.fixed [⟨0, 9⟩]) [threeBlocks] 0 = [⟨7, 7⟩, ⟨6, 6⟩] := by cbv
  have hmissing : ∀ x ∈ threeBlocks.full, x ∈ threeBlocks.missing := fun x hx => ⟨hx, by simp [threeBlocks]⟩
  have hlater := (cap_defers_oldest ⟨1, 1, 2⟩ (.fixed [⟨0, 9⟩]) [threeBlocks] hs (i := 0) rfl).1 6
    (hmissing 6 (by decide)) (hgiven ▸ by decide)
  have hnot : 5 ∉ values (givenAt ⟨1, 1, 2⟩ (.fixed [⟨0, 9⟩]) [threeBlocks] 0) := hgiven ▸ by decide
  refine ⟨hs, hmissing 6 (by decide), hgiven ▸ by decide, ?_, hmissing 5 (by decide), hnot, ?_⟩
  · exact (hlater 7 (hmissing 7 (by decide)) (by decide)).1 (by decide)
  · exact (hlater 5 (hmissing 5 (by decide)) (by decide)).2 hnot

end Backfill.Plan
