import Backfill.Proofs.Plan.Batching
import Backfill.Proofs.Plan.Caps

/-!
# Batching costs no more

A shared query scans the hull of what its entities miss in a slice, and it is only made when the hull has no more
blocks than these parts together. So what a query scans is bounded by what it serves. Without batching a query scans
just what it serves. With all blocks in some slice and room for a query a block, both plans serve each input the same
blocks once, so that the bounds of the single queries add up to one on the whole plan. The number of queries needs
neither: batched turns use up no more of the cap.
-/

namespace Backfill

open Range (Separate values)

theorem Query.range_rename {ε δ α : Type} (f : ε → δ) (q : Query ε α) : (q.rename f).range = q.range := by
  cases q <;> rfl

namespace Plan

/-! ## Shared queries -/

section Shared

variable {ε : Type} {o : Options} {index : Index UInt64} {inputs : List (PlanInput ε UInt64)}

/-- A shared query for these entities pays: it lists several, and it scans no more blocks than it serves. What it
serves is valid and inside of what it scans, a filter lets through just what it lists, and an entity without a filter
misses all of the range. -/
structure Pays (inputs : List (PlanInput ε UInt64)) (entities : List ε) (range : Range UInt64)
    (needs : List (ε × Need UInt64)) : Prop where
  several : 2 ≤ entities.length
  listed : needs.map Prod.fst = entities
  inside : ∀ p ∈ (Query.shared entities range needs).served, ∀ r ∈ p.2, r.valid = true ∧ ∀ x ∈ r, x ∈ range
  filtered : ∀ e ranges, (e, .parts ranges) ∈ needs → Range.clip ranges range = ranges
  whole : ∀ e, (e, .whole) ∈ needs → ∃ input ∈ inputs, input.entity = e ∧ ∀ x ∈ range, x ∈ input.missing
  scanned : {x | x ∈ range}.ncard ≤
    ((Query.shared entities range needs).served.map fun p => (values p.2).ncard).sum

/-- A sum that starts over is no larger than the whole one. -/
theorem separateCost_le {α : Type} [Axis α] (group : List (Member ε α)) :
    separateCost group ≤ (group.map fun m => Range.totalSize m.parts).sum := by
  rw [List.sum_eq_foldr, List.foldr_map]
  exact Nat.mod_le _ _

/-- A group shares a query when there are several members and the hull of their parts is no larger than the parts. -/
theorem several_of_sharedRange? {α : Type} [Axis α] {group : List (Member ε α)} {range : Range α}
    (h : sharedRange? group = some range) :
    2 ≤ group.length ∧ range.size ≤ (group.map fun m => Range.totalSize m.parts).sum := by
  unfold sharedRange? at h
  split at h
  · cases h
  · rename_i hseveral
    split at h
    · cases h
    · split at h
      · rename_i hsize
        cases h
        exact ⟨Nat.le_of_not_lt hseveral, hsize.trans (separateCost_le group)⟩
      · cases h

/-- Below the length of a word the size of a range is the number of its blocks. -/
theorem ncard_le_of_sharedRange? {group : List (Member ε UInt64)} {range : Range UInt64}
    (h : sharedRange? group = some range) (hword : {x | x ∈ range}.ncard ≤ maxWord) :
    {x | x ∈ range}.ncard ≤ (group.map fun m => (values m.parts).ncard).sum := by
  have hsize := (several_of_sharedRange? h).2
  rw [Range.size_eq, Nat.min_eq_left hword] at hsize
  exact hsize.trans (List.sum_le_sum fun m _ => Range.totalSize_le m.parts)

theorem Grouped.pays {slice : Range UInt64} {group : List (Member ε UInt64)}
    (h : Grouped o (inputs.filterMap (asker? o)) slice group) {range : Range UInt64}
    (hr : sharedRange? group = some range) (hword : {x | x ∈ range}.ncard ≤ maxWord) {entities : List ε}
    {scan : Range UInt64} {needs : List (ε × Need UInt64)}
    (hq : .shared entities scan needs = sharedQuery group range) : Pays inputs entities scan needs := by
  have hhull := hull?_of_sharedRange? hr
  have hparts : ∀ m ∈ group, ∀ r ∈ m.parts, ∀ x ∈ r, x ∈ range := fun m hm r hrm x hx =>
    Range.mem_of_hull? hhull (List.mem_flatMap.2 ⟨m, hm, hrm⟩) hx
  have hserved := served_sharedQuery (fun m => h.merged) hr
  rw [← hq] at hserved
  unfold sharedQuery at hq
  cases hq
  constructor
  case several =>
    rw [List.length_map]
    exact (several_of_sharedRange? hr).1
  case listed => rw [List.map_map]; rfl
  case inside =>
    intro p hp r hrp
    rw [hserved] at hp
    obtain ⟨m, hm, rfl⟩ := List.mem_map.1 hp
    exact ⟨(h.merged hm).valid r hrp, hparts m hm r hrp⟩
  case filtered =>
    intro e ranges hneed
    obtain ⟨m, hm, hneed⟩ := List.mem_map.1 hneed
    split at hneed
    · cases hneed
    · cases hneed
      exact (h.merged hm).clip_eq (hparts m hm)
  case whole =>
    intro e hneed
    obtain ⟨m, hm, hneed⟩ := List.mem_map.1 hneed
    split at hneed
    · rename_i hall
      cases hneed
      obtain ⟨input, hin, ha⟩ := List.mem_filterMap.1 (h.listed m hm)
      refine ⟨input, hin, (entity_of_asker? ha).symm, fun x hx => values_fresh_subset ha ?_⟩
      have hx : x ∈ values m.parts := hall ▸ Range.mem_values_singleton.2 hx
      rw [h.parts m hm] at hx
      exact (Range.mem_values_clip.1 hx).1
    · cases hneed
  case scanned =>
    rw [hserved, List.map_map]
    exact ncard_le_of_sharedRange? hr hword

/-- Every shared query of a plan pays. -/
theorem pays_of_mem_optimize (hrange : o.maxRange ≤ maxWord) {entities : List ε} {range : Range UInt64}
    {needs : List (ε × Need UInt64)} (hq : .shared entities range needs ∈ (optimize o index inputs).queries) :
    Pays inputs entities range needs := by
  have hword : {x | x ∈ range}.ncard ≤ maxWord :=
    (within_of_mem_optimize hq).scanned.trans (Nat.max_le.2 ⟨by decide, hrange⟩)
  rw [optimize_queries, List.mem_append] at hq
  rcases hq with hq | hq
  · obtain ⟨slice, -, group, hg, ⟨m, -, r, -, heq⟩ | ⟨hull, hr, heq⟩⟩ := mem_sliceQueries hq
    · cases heq
    · have hhull : range = hull := congrArg Query.range heq
      exact hg.pays hr (hhull ▸ hword) heq
  · obtain ⟨asker, -, r, -, heq⟩ := mem_retryQueries hq
    cases heq

end Shared

/-! ## Costs of a plan -/

/-- The blocks that queries scan, one query after another. -/
noncomputable def scanned {ε : Type} (queries : List (Query ε UInt64)) : Nat :=
  (queries.map fun q => {x | x ∈ q.range}.ncard).sum

theorem sum_map_one {β : Type} (xs : List β) : (xs.map fun _ => 1).sum = xs.length := by
  rw [List.map_const', List.sum_const_nat, Nat.mul_one]

/-- Weights of entries whose keys are below `n`, summed key by key. -/
theorem sum_by_key {β : Type} {n : Nat} {entries : List β} (key weight : β → Nat)
    (h : ∀ b ∈ entries, key b < n) : (entries.map weight).sum =
      ∑ i ∈ Finset.range n, ((entries.filter fun b => key b == i).map weight).sum := by
  induction entries with
  | nil => simp
  | cons b entries ih =>
      obtain ⟨hb, h⟩ := List.forall_mem_cons.1 h
      have hone : ∀ i, (((b :: entries).filter fun b => key b == i).map weight).sum =
          (if key b = i then weight b else 0) + ((entries.filter fun b => key b == i).map weight).sum := by
        intro i
        by_cases hi : key b = i <;> simp [hi]
      simp only [hone, Finset.sum_add_distrib, Finset.sum_ite_eq, if_pos (Finset.mem_range.2 hb)]
      rw [List.map_cons, List.sum_cons, ih h]

section Places

variable {ε α : Type} [Axis α] {n : Nat} {queries : List (Query (ε × Nat) α)}

/-- What all queries serve, weighed, is what they serve at each place. -/
theorem sum_served (weight : List (Range α) → Nat) (h : ∀ q ∈ queries, ∀ p ∈ q.served, p.1.2 < n) :
    (queries.map fun q => (q.served.map fun p => weight p.2).sum).sum =
      ∑ i ∈ Finset.range n, ((shares (·.2 == i) queries).map weight).sum := by
  have hentries : ∀ p ∈ queries.flatMap Query.served, p.1.2 < n := by
    intro p hp
    obtain ⟨q, hq, hp⟩ := List.mem_flatMap.1 hp
    exact h q hq p hp
  have hshares : ∀ i, shares (·.2 == i) queries =
      ((queries.flatMap Query.served).filter fun p => p.1.2 == i).map (·.2) := by
    intro i
    rw [List.filter_flatMap, List.map_flatMap]
    rfl
  have hsum := sum_by_key (fun p : (ε × Nat) × List (Range α) => p.1.2) (fun p => weight p.2) hentries
  rw [List.map_flatMap, List.flatMap_def, List.sum_flatten, List.map_map] at hsum
  refine hsum.trans ?_
  refine Finset.sum_congr rfl fun i _ => ?_
  rw [hshares, List.map_map]
  rfl

end Places

section Plans

variable {ε : Type} {o : Options} {index : Index UInt64} {inputs : List (PlanInput ε UInt64)}

theorem place_lt_of_mem_served {q : Query (ε × Nat) UInt64} (hq : q ∈ (optimize o index (placed inputs)).queries)
    {p : (ε × Nat) × List (Range UInt64)} (hp : p ∈ q.served) : p.1.2 < inputs.length := by
  obtain ⟨input, hin, -, he⟩ := mem_entities_optimize hq ((sound_optimize hq).listed p hp)
  obtain ⟨⟨input, i⟩, hi, rfl⟩ := List.mem_map.1 hin
  rw [← he]
  exact (List.getElem?_eq_some_iff.1 (List.mk_mem_zipIdx_iff_getElem?.1 hi)).1

theorem ncard_served_single (e : ε) (r : Range UInt64) :
    ((Query.single e r).served.map fun p => (values p.2).ncard).sum = {x | x ∈ r}.ncard := by
  rw [Query.served, List.map_singleton, List.sum_singleton]
  exact congrArg Set.ncard (Set.ext fun _ => Range.mem_values_singleton)

/-- A query of a plan scans no more blocks than it serves, an entity's blocks counted for each entity. -/
theorem ncard_le_served_of_mem_optimize (hrange : o.maxRange ≤ maxWord) {q : Query ε UInt64}
    (hq : q ∈ (optimize o index inputs).queries) :
    {x | x ∈ q.range}.ncard ≤ (q.served.map fun p => (values p.2).ncard).sum := by
  cases q with
  | single e r => exact (ncard_served_single e r).ge
  | shared entities range needs => exact (pays_of_mem_optimize hrange hq).scanned

theorem one_le_length_served_of_mem_optimize (hrange : o.maxRange ≤ maxWord) {q : Query ε UInt64}
    (hq : q ∈ (optimize o index inputs).queries) : 1 ≤ q.served.length := by
  cases q with
  | single e r => exact Nat.le_refl 1
  | shared entities range needs =>
      have hpays := pays_of_mem_optimize hrange hq
      have hseveral := hpays.several
      rw [← hpays.listed, List.length_map] at hseveral
      rw [Query.served, List.length_map]
      omega

/-! ## With and without batching -/

/-- Served one by one or not, an input whose blocks all lie in slices and fit the cap gets as many as it needs. -/
theorem Only.sum_ncard_shares {ε : Type} {inputs : List (PlanInput ε UInt64)} {input : PlanInput ε UInt64}
    {who : ε → Bool} (h : Only who inputs input) (hs : Separate (index.slices (requested o inputs)))
    (hcover : input.missing ⊆ values (index.slices (requested o inputs))) (hcap : input.needed.ncard ≤ o.maxQueries) :
    ((shares who (optimize o index inputs).queries).map fun ranges => (values ranges).ncard).sum =
      input.needed.ncard := by
  rw [Range.sum_ncard_values (h.given_separate hs)]
  exact congrArg Set.ncard (h.given_eq hs hcover hcap)

theorem scanned_rename {δ : Type} (f : ε → δ) (queries : List (Query ε UInt64)) :
    scanned (queries.map (Query.rename f)) = scanned queries := by
  rw [scanned, scanned, List.map_map]
  refine congrArg List.sum (List.map_congr_left fun q _ => ?_)
  rw [Function.comp_apply, Query.range_rename]

/-- Queries that cost no more than what they serve cost no more than queries of one entity that cost just what they
serve, if they serve no more at any place. -/
theorem sum_cost_le_alone (cost : Query (ε × Nat) UInt64 → Nat) (weight : List (Range UInt64) → Nat)
    (hcost : ∀ q ∈ (optimize o index (placed inputs)).queries, cost q ≤ (q.served.map fun p => weight p.2).sum)
    (hsingle : ∀ e r, ((Query.single e r).served.map fun p => weight p.2).sum = cost (.single e r))
    (hle : ∀ i < inputs.length, ((shares (·.2 == i) (optimize o index (placed inputs)).queries).map weight).sum ≤
      ((shares (·.2 == i) (optimize { o with maxAddresses := 1 } index (placed inputs)).queries).map weight).sum) :
    ((optimize o index (placed inputs)).queries.map cost).sum ≤
      ((optimize { o with maxAddresses := 1 } index (placed inputs)).queries.map cost).sum := by
  have halone : ∀ q ∈ (optimize { o with maxAddresses := 1 } index (placed inputs)).queries,
      (q.served.map fun p => weight p.2).sum = cost q := by
    intro q hq
    obtain ⟨e, r, rfl⟩ := exists_single_of_mem_optimize (Nat.le_refl 1) hq
    exact hsingle e r
  calc ((optimize o index (placed inputs)).queries.map cost).sum
      ≤ ((optimize o index (placed inputs)).queries.map fun q => (q.served.map fun p => weight p.2).sum).sum :=
        List.sum_le_sum hcost
    _ = ∑ i ∈ Finset.range inputs.length,
          ((shares (·.2 == i) (optimize o index (placed inputs)).queries).map weight).sum :=
        sum_served weight fun q hq p => place_lt_of_mem_served hq
    _ ≤ ∑ i ∈ Finset.range inputs.length, ((shares (·.2 == i)
          (optimize { o with maxAddresses := 1 } index (placed inputs)).queries).map weight).sum :=
        Finset.sum_le_sum fun i hi => hle i (Finset.mem_range.1 hi)
    _ = ((optimize { o with maxAddresses := 1 } index (placed inputs)).queries.map
          fun q => (q.served.map fun p => weight p.2).sum).sum :=
        (sum_served weight fun q hq p => place_lt_of_mem_served hq).symm
    _ = ((optimize { o with maxAddresses := 1 } index (placed inputs)).queries.map cost).sum :=
        congrArg List.sum (List.map_congr_left halone)

theorem length_optimize_le_alone (hrange : o.maxRange ≤ maxWord) (index : Index UInt64)
    (inputs : List (PlanInput ε UInt64)) : (optimize o index inputs).queries.length ≤
      (optimize { o with maxAddresses := 1 } index inputs).queries.length := by
  have hone : ∀ q ∈ (optimize o index (placed inputs)).queries, 1 ≤ (q.served.map fun _ => 1).sum := by
    intro q hq
    rw [sum_map_one]
    exact one_le_length_served_of_mem_optimize hrange hq
  have hshares : ∀ i < inputs.length,
      ((shares (·.2 == i) (optimize o index (placed inputs)).queries).map fun _ => 1).sum ≤
        ((shares (·.2 == i) (optimize { o with maxAddresses := 1 } index (placed inputs)).queries).map
          fun _ => 1).sum := by
    intro i hi
    rw [sum_map_one, sum_map_one]
    exact (only_placed (List.getElem?_eq_getElem hi)).length_shares_batched o.maxAddresses
  have hsum := sum_cost_le_alone (fun _ => 1) (fun _ => 1) hone (fun _ _ => rfl) hshares
  rw [← optimize_placed, ← optimize_placed { o with maxAddresses := 1 }, List.length_map, List.length_map]
  rwa [sum_map_one, sum_map_one] at hsum

theorem scanned_optimize_le_alone (hrange : o.maxRange ≤ maxWord) (hs : Separate (index.slices (requested o inputs)))
    (hfits : ∀ input ∈ inputs, input.missing ⊆ values (index.slices (requested o inputs)) ∧
      input.needed.ncard ≤ o.maxQueries) :
    scanned (optimize o index inputs).queries ≤
      scanned (optimize { o with maxAddresses := 1 } index inputs).queries := by
  rw [← optimize_placed, ← optimize_placed { o with maxAddresses := 1 }, scanned_rename, scanned_rename]
  refine sum_cost_le_alone _ (fun ranges => (values ranges).ncard)
    (fun q hq => ncard_le_served_of_mem_optimize hrange hq) ncard_served_single fun i hi => ?_
  have honly := only_placed (List.getElem?_eq_getElem hi)
  obtain ⟨hcover, hcap⟩ := hfits _ (List.getElem_mem hi)
  rw [← requested_placed] at hs hcover
  have hbatched := honly.sum_ncard_shares hs hcover hcap
  have halone := honly.sum_ncard_shares (o := { o with maxAddresses := 1 }) hs hcover hcap
  exact (hbatched.trans halone.symm).le

/-- Every shared query of a plan pays, and a plan has no more queries than the one that lists one address a query. It
scans no more blocks either, when no slices of the index overlap, these hold all that is missing, and the cap admits a
query for each block that an input needs. The cap on the blocks of a query is a word. -/
theorem batching_costs_no_more (o : Options) (hrange : o.maxRange ≤ maxWord) (index : Index UInt64)
    (inputs : List (PlanInput ε UInt64)) :
    (∀ entities range needs, .shared entities range needs ∈ (optimize o index inputs).queries →
      Pays inputs entities range needs) ∧
    (optimize o index inputs).queries.length ≤
      (optimize { o with maxAddresses := 1 } index inputs).queries.length ∧
    (Separate (index.slices (requested o inputs)) →
      (∀ input ∈ inputs, input.missing ⊆ values (index.slices (requested o inputs)) ∧
        input.needed.ncard ≤ o.maxQueries) →
      scanned (optimize o index inputs).queries ≤
        scanned (optimize { o with maxAddresses := 1 } index inputs).queries) :=
  ⟨fun _ _ _ => pays_of_mem_optimize hrange, length_optimize_le_alone hrange index inputs,
    fun hs hfits => scanned_optimize_le_alone hrange hs hfits⟩

/-- One query of three blocks for two contracts takes the place of four queries of one block. -/
theorem batching_costs_no_more_twoGaps :
    Pays twoGaps ["pool", "vault"] ⟨5, 7⟩ [("pool", .parts [⟨5, 5⟩, ⟨7, 7⟩]), ("vault", .parts [⟨5, 5⟩, ⟨7, 7⟩])] ∧
    scanned (optimize ⟨2, 4, 3⟩ (.fixed [⟨0, 9⟩]) twoGaps).queries = 3 ∧
    scanned (optimize ⟨1, 4, 3⟩ (.fixed [⟨0, 9⟩]) twoGaps).queries = 4 ∧
    scanned (optimize ⟨2, 4, 3⟩ (.fixed [⟨0, 9⟩]) twoGaps).queries ≤
      scanned (optimize ⟨1, 4, 3⟩ (.fixed [⟨0, 9⟩]) twoGaps).queries ∧
    (optimize ⟨2, 4, 3⟩ (.fixed [⟨0, 9⟩]) twoGaps).queries.length ≤
      (optimize ⟨1, 4, 3⟩ (.fixed [⟨0, 9⟩]) twoGaps).queries.length := by
  have htogether : (optimize ⟨2, 4, 3⟩ (.fixed [⟨0, 9⟩]) twoGaps).queries = [.shared ["pool", "vault"] ⟨5, 7⟩
      [("pool", .parts [⟨5, 5⟩, ⟨7, 7⟩]), ("vault", .parts [⟨5, 5⟩, ⟨7, 7⟩])]] := by
    cbv
  have halone : (optimize ⟨1, 4, 3⟩ (.fixed [⟨0, 9⟩]) twoGaps).queries =
      [.single "pool" ⟨7, 7⟩, .single "pool" ⟨5, 5⟩, .single "vault" ⟨7, 7⟩, .single "vault" ⟨5, 5⟩] := by
    cbv
  have hslices : Separate ((Index.fixed [⟨0, 9⟩]).slices (requested ⟨2, 4, 3⟩ twoGaps)) := List.pairwise_singleton _ _
  have hfits : ∀ input ∈ twoGaps, input.missing ⊆ values [⟨0, 9⟩] ∧ input.needed.ncard ≤ 3 := by
    intro input hin
    have hfull : input.full = ⟨5, 7⟩ := by
      simp only [twoGaps, List.mem_cons, List.not_mem_nil, or_false] at hin
      rcases hin with rfl | rfl <;> rfl
    refine ⟨?_, input.ncard_needed_le.trans (by rw [hfull]; decide)⟩
    rintro x ⟨hx, -⟩
    rw [hfull, Range.mem_iff_rank] at hx
    rw [Range.mem_values_singleton, Range.mem_iff_rank]
    exact ⟨(by decide : Axis.rank (0 : UInt64) ≤ Axis.rank (5 : UInt64)).trans hx.1,
      hx.2.trans (by decide : Axis.rank (7 : UInt64) ≤ Axis.rank (9 : UInt64))⟩
  obtain ⟨hpays, hlength, hscanned⟩ := batching_costs_no_more ⟨2, 4, 3⟩ (by decide) (.fixed [⟨0, 9⟩]) twoGaps
  refine ⟨hpays _ _ _ (htogether ▸ List.mem_singleton_self _), ?_, ?_, hscanned hslices hfits, hlength⟩
  · rw [htogether]
    simp [scanned, Query.range, Range.ncard_blocks]
  · rw [halone]
    simp [scanned, Query.range, Range.ncard_blocks]

end Plans

end Plan

end Backfill
