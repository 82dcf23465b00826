import Backfill.Proofs.Plan.Recipients
import Backfill.Proofs.Plan.Rename
import Backfill.Proofs.Plan.Served

/-!
# A plan gives each input what it needs

What a plan gives to an input is never given twice and never more than the input needs; when the caps
leave room for one query a value and the slices hold everything that is missing, it is all of it.
-/

namespace Backfill.Plan

open Range (Merged Separate values)

variable {ε α : Type} [Axis α] {o : Options} {index : Index α} {inputs : List (PlanInput ε α)}
  {input : PlanInput ε α} {who : ε → Bool}

/-! ## The one input that `who` picks -/

omit [Axis α] in
theorem exists_stands {askers : List (Asker ε α)} {asker : Asker ε α} (ha : asker ∈ askers)
    (hwho : who asker.entity = true)
    (hpair : askers.Pairwise fun a b => ¬ (who a.entity = true ∧ who b.entity = true)) :
    ∃ place, Stands who askers place asker := by
  obtain ⟨place, hat⟩ := List.mem_iff_getElem?.1 ha
  refine ⟨place, hat, fun i a hi => ⟨fun hwa => ?_, ?_⟩⟩
  · obtain ⟨hlp, rfl⟩ := List.getElem?_eq_some_iff.1 hat
    obtain ⟨hli, rfl⟩ := List.getElem?_eq_some_iff.1 hi
    rw [List.pairwise_iff_getElem] at hpair
    rcases Nat.lt_trichotomy i place with hlt | heq | hgt
    · exact absurd ⟨hwa, hwho⟩ (hpair i place hli hlp hlt)
    · exact heq
    · exact absurd ⟨hwho, hwa⟩ (hpair place i hlp hli hgt)
  · rintro rfl
    rw [hat] at hi
    cases hi
    exact hwho

/-- Of the inputs, `who` picks just this one. -/
structure Only (who : ε → Bool) (inputs : List (PlanInput ε α)) (input : PlanInput ε α) : Prop where
  mem : input ∈ inputs
  picked : who input.entity = true
  pairwise : inputs.Pairwise fun a b => ¬ (who a.entity = true ∧ who b.entity = true)

theorem Only.stands (h : Only who inputs input) {asker : Asker ε α} (ha : asker? o input = some asker) :
    ∃ place, Stands who (inputs.filterMap (asker? o)) place asker := by
  refine exists_stands (List.mem_filterMap.2 ⟨input, h.mem, ha⟩) ?_ ?_
  · rw [entity_of_asker? ha]
    exact h.picked
  · refine h.pairwise.filterMap _ ?_
    intro i j hij a hi b hj
    rw [entity_of_asker? hi, entity_of_asker? hj]
    exact hij

variable [DecidableEq α]

/-- What a plan gives to the entities that `who` picks. -/
def given (who : ε → Bool) (queries : List (Query ε α)) : List (Range α) := (shares who queries).flatten

variable [DiscreteAxis α]

/-- The plan gives an input its turns in the slices, then retries in the room that is left. -/
theorem Only.shares_eq (h : Only who inputs input) (index : Index α) {asker : Asker ε α}
    (ha : asker? o input = some asker) :
    ∃ got, Turns o.maxQueries asker.fresh 0
        (orderedSlices (max 1 o.maxRange) index (inputs.filterMap (asker? o))) got ∧
      shares who (optimize o index inputs).queries = got ++ (Range.takePieces asker.retries
        (max 1 o.maxRange) (o.maxQueries - got.length) .newestFirst).map ([·]) := by
  obtain ⟨place, hst⟩ := h.stands ha
  have hzero : usedBy ((inputs.filterMap (asker? o)).map fun _ => 0) place = 0 := by
    rw [usedBy, List.getD_eq_getElem?_getD, List.getElem?_map, hst.getElem?_eq]
    rfl
  have hplace : place < ((inputs.filterMap (asker? o)).map fun _ => 0).length := by
    rw [List.length_map]
    exact (List.getElem?_eq_some_iff.1 hst.getElem?_eq).1
  obtain ⟨hturns, hcount⟩ := turns_tally (o := o) hst
    (orderedSlices (max 1 o.maxRange) index (inputs.filterMap (asker? o))) hplace
  rw [hzero] at hturns
  rw [hzero, Nat.zero_add] at hcount
  refine ⟨_, hturns, ?_⟩
  rw [optimize_queries, shares, List.flatMap_append, ← shares, ← shares, shares_retryQueries hst, sliceQueries, hcount]

theorem Only.turns (h : Only who inputs input) (index : Index α) {asker : Asker ε α}
    (ha : asker? o input = some asker) :
    ∃ got, Turns o.maxQueries asker.fresh 0
        (orderedSlices (max 1 o.maxRange) index (inputs.filterMap (asker? o))) got ∧
      given who (optimize o index inputs).queries = got.flatten ++ Range.takePieces asker.retries
        (max 1 o.maxRange) (o.maxQueries - got.length) .newestFirst := by
  obtain ⟨got, hturns, hshares⟩ := h.shares_eq index ha
  exact ⟨got, hturns, by rw [given, hshares, List.flatten_append, flatten_map_singleton]⟩

theorem Only.shares_of_invalid (h : Only who inputs input) (hv : ¬ input.full.valid = true) :
    shares who (optimize o index inputs).queries = [] := by
  rw [List.eq_nil_iff_forall_not_mem]
  intro rs hrs
  obtain ⟨q, hq, hrs⟩ := List.mem_flatMap.1 hrs
  obtain ⟨p, hp, rfl⟩ := List.mem_map.1 hrs
  obtain ⟨hp, hwp⟩ := List.mem_filter.1 hp
  obtain ⟨other, ho, hov, he⟩ := mem_entities_optimize hq ((sound_optimize hq).listed p hp)
  rw [← he] at hwp
  have hne : other ≠ input := fun heq => hv (heq ▸ hov)
  have hsymm : Std.Symm fun a b : PlanInput ε α => ¬ (who a.entity = true ∧ who b.entity = true) :=
    ⟨fun a b hab hba => hab hba.symm⟩
  exact absurd ⟨hwp, h.picked⟩ (h.pairwise.forall ho h.mem hne)

theorem Only.given_of_invalid (h : Only who inputs input) (hv : ¬ input.full.valid = true) :
    given who (optimize o index inputs).queries = [] := by
  rw [given, h.shares_of_invalid hv, List.flatten_nil]

theorem Only.given_separate (h : Only who inputs input)
    (hs : Separate (index.slices (requested o inputs))) :
    Separate (given who (optimize o index inputs).queries) := by
  by_cases hv : input.full.valid = true
  · obtain ⟨asker, ha⟩ := exists_asker? (o := o) hv
    obtain ⟨got, hturns, hgiven⟩ := h.turns index ha
    rw [hgiven, Range.separate_append]
    refine ⟨hturns.separate (separate_orderedSlices hs _), (merged_retries ha).separate_takePieces _ _, ?_⟩
    intro x hx hr
    have hfresh : x ∈ input.missing := values_fresh_subset ha (hturns.values_subset hx).1
    have hfailed : x ∈ input.failed := values_retries ha ▸ Range.values_takePieces_subset _ _ _ _ hr
    exact Set.disjoint_left.1 input.disjoint_missing_failed hfresh hfailed
  · rw [h.given_of_invalid hv]
    exact .nil

theorem Only.given_subset (h : Only who inputs input) :
    values (given who (optimize o index inputs).queries) ⊆ input.needed := by
  by_cases hv : input.full.valid = true
  · obtain ⟨asker, ha⟩ := exists_asker? (o := o) hv
    obtain ⟨got, hturns, hgiven⟩ := h.turns index ha
    rw [hgiven, Range.values_append, PlanInput.needed_eq]
    refine Set.union_subset_union ?_ ?_
    · exact fun x hx => values_fresh_subset ha (hturns.values_subset hx).1
    · exact fun x hx => values_retries ha ▸ Range.values_takePieces_subset _ _ _ _ hx
  · rw [h.given_of_invalid hv, Range.values_nil]
    exact Set.empty_subset _

theorem Only.given_nonempty [Finite α] (h : Only who inputs input)
    (hs : Separate (index.slices (requested o inputs)))
    (hcover : values (requested o inputs) ⊆ values (index.slices (requested o inputs))) (hcap : 1 ≤ o.maxQueries)
    (hneed : input.needed.Nonempty) : (values (given who (optimize o index inputs).queries)).Nonempty := by
  obtain ⟨x, hx⟩ := hneed
  obtain ⟨asker, ha⟩ := exists_asker? (o := o) (Range.valid_of_mem hx.1)
  obtain ⟨got, hturns, hgiven⟩ := h.turns index ha
  rw [hgiven, Range.values_append]
  by_cases hm : input.missing.Nonempty
  · obtain ⟨y, hy⟩ := fresh_nonempty ha hcap hm
    refine (hturns.values_nonempty hcap ⟨y, hy, ?_⟩).inl
    exact mem_values_orderedSlices _ (List.mem_filterMap.2 ⟨input, h.mem, ha⟩) hy
      (hcover (values_fresh_subset_requested h.mem ha hy))
  · rw [Set.not_nonempty_iff_eq_empty] at hm
    have hfresh : values asker.fresh = ∅ := Set.subset_eq_empty (values_fresh_subset ha) hm
    have hlen := hturns.length_le (separate_orderedSlices hs _)
    rw [hfresh, Set.empty_inter, Set.ncard_empty] at hlen
    rw [PlanInput.needed_eq, hm, Set.empty_union, ← values_retries ha] at hx
    exact ((merged_retries ha).takePieces_nonempty _ (by omega) ⟨x, hx⟩).inr

theorem optimize_of_needless (h : ∀ input ∈ inputs, input.needed = ∅) : (optimize o index inputs).queries = [] := by
  have hnone : ∀ asker ∈ inputs.filterMap (asker? o), asker.fresh = [] ∧ asker.retries = [] := by
    intro asker ha
    obtain ⟨input, hin, ha⟩ := List.mem_filterMap.1 ha
    exact asker_of_needless ha (h input hin)
  have hslices : orderedSlices (max 1 o.maxRange) index (inputs.filterMap (asker? o)) = [] := by
    have hfresh : (inputs.filterMap (asker? o)).flatMap (·.fresh) = [] :=
      List.flatMap_eq_nil_iff.2 fun asker ha => (hnone asker ha).1
    rw [orderedSlices, hfresh, Merged.nil.merge_eq]
    rfl
  have hretries : ∀ used, retryQueries o used (inputs.filterMap (asker? o)) = [] := by
    intro used
    refine List.flatMap_eq_nil_iff.2 ?_
    rintro ⟨asker, place⟩ ha
    have hat := List.mem_of_getElem? (List.mk_mem_zipIdx_iff_getElem?.1 ha)
    simp [(hnone asker hat).2, Range.takePieces, Range.splitAll]
  rw [optimize_queries, hretries, List.append_nil, sliceQueries, hslices, tally]

theorem Only.given_eq [Finite α] (h : Only who inputs input)
    (hs : Separate (index.slices (requested o inputs)))
    (hcover : input.missing ⊆ values (index.slices (requested o inputs)))
    (hcap : input.needed.ncard ≤ o.maxQueries) :
    values (given who (optimize o index inputs).queries) = input.needed := by
  by_cases hv : input.full.valid = true
  · obtain ⟨asker, ha⟩ := exists_asker? (o := o) hv
    obtain ⟨got, hturns, hgiven⟩ := h.turns index ha
    rw [PlanInput.needed_eq, Set.ncard_union_eq input.disjoint_missing_failed (Set.toFinite _) (Set.toFinite _)]
      at hcap
    have hfresh := values_fresh ha (by omega)
    have hslices : values asker.fresh ∩ values (orderedSlices (max 1 o.maxRange) index (inputs.filterMap (asker? o))) =
        input.missing := by
      rw [hfresh]
      refine Set.inter_eq_left.2 fun x hx => ?_
      exact mem_values_orderedSlices _ (List.mem_filterMap.2 ⟨input, h.mem, ha⟩) (hfresh ▸ hx) (hcover hx)
    have hsep : Separate (orderedSlices (max 1 o.maxRange) index (inputs.filterMap (asker? o))) :=
      separate_orderedSlices hs _
    have hlen := hturns.length_le hsep
    have hgot := hturns.values_eq hsep (by rw [hslices]; omega)
    have hroom : (values asker.retries).ncard ≤ o.maxQueries - got.length := by
      rw [values_retries ha]
      rw [hslices] at hlen
      omega
    rw [hgiven, Range.values_append, hgot, hslices, (merged_retries ha).values_takePieces hroom,
      values_retries ha, PlanInput.needed_eq]
  · rw [h.given_of_invalid hv, Range.values_nil, PlanInput.needed_eq_empty hv]

/-! ## Every input of a list -/

omit [Axis α] [DecidableEq α] [DiscreteAxis α] in
/-- The inputs with their places beside their entities, so that no two of them are for the same one. -/
def placed (inputs : List (PlanInput ε α)) : List (PlanInput (ε × Nat) α) :=
  inputs.zipIdx.map fun p => p.1.rename (·, p.2)

/-- What a plan gives to the input at a place. -/
def givenAt (o : Options) (index : Index α) (inputs : List (PlanInput ε α)) (place : Nat) : List (Range α) :=
  given (·.2 == place) (optimize o index (placed inputs)).queries

omit [Axis α] [DecidableEq α] [DiscreteAxis α] in
theorem map_rename_placed (inputs : List (PlanInput ε α)) :
    (placed inputs).map (PlanInput.rename Prod.fst) = inputs := by
  rw [placed, List.map_map]
  exact List.zipIdx_map_fst 0 inputs

omit [Axis α] [DecidableEq α] [DiscreteAxis α] in
theorem only_placed {i : Nat} (h : inputs[i]? = some input) :
    Only (·.2 == i) (placed inputs) (input.rename (·, i)) where
  mem := List.mem_map.2 ⟨(input, i), List.mk_mem_zipIdx_iff_getElem?.2 h, rfl⟩
  picked := beq_self_eq_true i
  pairwise := by
    refine List.pairwise_map.2 ((pairwise_zipIdx inputs).imp ?_)
    rintro ⟨a, j⟩ ⟨b, k⟩ hjk ⟨hj, hk⟩
    exact hjk ((eq_of_beq hj).trans (eq_of_beq hk).symm)

omit [DecidableEq α] [DiscreteAxis α] in
theorem requested_rename {δ : Type} (f : ε → δ) (o : Options) (inputs : List (PlanInput ε α)) :
    requested o (inputs.map (PlanInput.rename f)) = requested o inputs := by
  rw [requested, askers_rename, List.flatMap_map]
  rfl

omit [DecidableEq α] [DiscreteAxis α] in
theorem requested_placed (o : Options) (inputs : List (PlanInput ε α)) :
    requested o (placed inputs) = requested o inputs := by
  rw [← requested_rename Prod.fst o (placed inputs), map_rename_placed]

omit [DiscreteAxis α] in
theorem optimize_placed (o : Options) (index : Index α) (inputs : List (PlanInput ε α)) :
    (optimize o index (placed inputs)).queries.map (Query.rename Prod.fst) =
      (optimize o index inputs).queries := by
  rw [← optimize_rename, map_rename_placed]

/-- Where the entity of an input is in no other input, what its place gets is what the entity gets. -/
theorem given_eq_givenAt {i : Nat}
    (hwho : ∀ j other, inputs[j]? = some other → (who other.entity = true ↔ j = i)) :
    given who (optimize o index inputs).queries = givenAt o index inputs i := by
  rw [← optimize_placed, given, shares, List.flatMap_map, givenAt, given, shares]
  refine congrArg List.flatten (List.flatMap_congr fun q hq => ?_)
  rw [Query.shares_rename, Query.shares, Query.shares]
  refine congrArg (List.map Prod.snd) (List.filter_congr fun p hp => ?_)
  obtain ⟨input, hin, -, he⟩ := mem_entities_optimize hq ((sound_optimize hq).listed p hp)
  obtain ⟨⟨other, j⟩, hj, rfl⟩ := List.mem_map.1 hin
  have hat := hwho j other (List.mk_mem_zipIdx_iff_getElem?.1 hj)
  rw [← he, Bool.eq_iff_iff]
  exact hat.trans beq_iff_eq.symm

/-- A plan gives the input at each place separate ranges inside what it needs, and all that it needs when
the slices hold what is missing and the cap admits one query a block. The places stand for entities that
may come several times; an entity of one input gets what its place gets. -/
theorem optimize_exact {ε : Type} (o : Options) (index : Index UInt64) (inputs : List (PlanInput ε UInt64))
    (hs : Separate (index.slices (requested o inputs))) :
    (optimize o index (placed inputs)).queries.map (Query.rename Prod.fst) = (optimize o index inputs).queries ∧
    ∀ i input, inputs[i]? = some input →
      (∀ who : ε → Bool, (∀ j other, inputs[j]? = some other → (who other.entity = true ↔ j = i)) →
        given who (optimize o index inputs).queries = givenAt o index inputs i) ∧
      Separate (givenAt o index inputs i) ∧
      values (givenAt o index inputs i) ⊆ input.needed ∧
      (¬ input.full.valid = true → givenAt o index inputs i = []) ∧
      (input.missing ⊆ values (index.slices (requested o inputs)) → input.needed.ncard ≤ o.maxQueries →
        values (givenAt o index inputs i) = input.needed) := by
  refine ⟨optimize_placed o index inputs, fun i input hi => ?_⟩
  have honly := only_placed hi
  rw [← requested_placed] at hs
  refine ⟨fun who hwho => given_eq_givenAt hwho, honly.given_separate hs, honly.given_subset,
    honly.given_of_invalid, fun hcover hcap => ?_⟩
  rw [← requested_placed] at hcover
  exact honly.given_eq hs hcover hcap

/-- One block was never fetched and one failed. -/
def twoBlocks : PlanInput String UInt64 := ⟨"pool", ⟨5, 6⟩, [], [⟨6, 6⟩]⟩

theorem optimize_exact_twoBlocks :
    Separate ((Index.fixed [⟨0, 9⟩]).slices (requested ⟨1, 1, 2⟩ [twoBlocks])) ∧
      values (givenAt ⟨1, 1, 2⟩ (.fixed [⟨0, 9⟩]) [twoBlocks] 0) = twoBlocks.needed := by
  have hs : Separate ((Index.fixed [⟨0, 9⟩]).slices (requested ⟨1, 1, 2⟩ [twoBlocks])) :=
    List.pairwise_singleton _ _
  obtain ⟨-, -, -, -, hexact⟩ := (optimize_exact ⟨1, 1, 2⟩ (.fixed [⟨0, 9⟩]) [twoBlocks] hs).2 0 twoBlocks rfl
  refine ⟨hs, hexact ?_ twoBlocks.ncard_needed_le⟩
  rintro x ⟨hx, -⟩
  rw [Range.mem_iff_rank] at hx
  refine Range.mem_values_singleton.2 (Range.mem_iff_rank.2 ?_)
  have hx : (5 : Int) ≤ x.toNat ∧ (x.toNat : Int) ≤ 6 := hx
  have : (0 : Int) ≤ x.toNat ∧ (x.toNat : Int) ≤ 9 := by omega
  exact this

end Backfill.Plan
