import Backfill.Proofs.Plan.Missing
import Backfill.Proofs.Plan.Turns

/-!
# Who gets something out of a query

The queries of a plan list entities of the inputs only, and each of them serves entities that it lists with
ranges inside the one that it scans.
-/

namespace Backfill

variable {ε α : Type} [Axis α]

/-- The query serves what it lists out of what it scans. -/
structure Query.Sound (q : Query ε α) : Prop where
  listed : ∀ p ∈ q.served, p.1 ∈ q.entities
  scanned : ∀ p ∈ q.served, ∀ r ∈ p.2, ∀ x ∈ r, x ∈ q.range

theorem Query.sound_single (e : ε) (r : Range α) : (Query.single e r).Sound where
  listed p hp := by
    obtain rfl := List.mem_singleton.1 hp
    exact List.mem_singleton.2 rfl
  scanned p hp s hs x hx := by
    obtain rfl := List.mem_singleton.1 hp
    obtain rfl := List.mem_singleton.1 hs
    exact hx

namespace Plan

variable [DecidableEq α] {o : Options} {q : Query ε α}

theorem sound_sharedQuery [DiscreteAxis α] (group : List (Member ε α)) (range : Range α) :
    (sharedQuery group range).Sound where
  listed p hp := by
    simp only [sharedQuery, Query.served, List.map_map, List.mem_map] at hp
    obtain ⟨m, hm, rfl⟩ := hp
    exact List.mem_map_of_mem hm
  scanned p hp r hr x hx := by
    simp only [sharedQuery, Query.served, List.map_map, List.mem_map, Function.comp_apply] at hp
    obtain ⟨m, hm, rfl⟩ := hp
    simp only at hr
    split at hr
    · obtain rfl := List.mem_singleton.1 hr
      exact hx
    · exact (Range.mem_values_clip.1 ⟨r, hr, hx⟩).2

theorem mem_serveGroup {cap : Nat} {used : List Nat} {group : List (Member ε α)}
    (hq : q ∈ (serveGroup cap used group).1) :
    (∃ m ∈ group, ∃ r ∈ m.parts, q = .single m.asker.entity r) ∨
      ∃ range, sharedRange? group = some range ∧ q = sharedQuery group range := by
  cases hs : sharedRange? group with
  | some range =>
      rw [serveGroup_shared hs] at hq
      exact Or.inr ⟨range, rfl, List.mem_singleton.1 hq⟩
  | none =>
      rw [serveGroup_alone hs] at hq
      obtain ⟨used', m, hm, hq⟩ := mem_tally hq
      obtain ⟨r, hr, rfl⟩ := List.mem_map.1 hq
      exact Or.inl ⟨m, hm, r, List.mem_reverse.1 (List.mem_of_mem_take hr), rfl⟩

/-- A group of askers that is served from one slice. -/
structure Grouped (o : Options) (askers : List (Asker ε α)) (slice : Range α) (group : List (Member ε α)) : Prop where
  listed : ∀ m ∈ group, m.asker ∈ askers
  parts : ∀ m ∈ group, m.parts = Range.clip m.asker.fresh slice
  length_le : group.length ≤ max 1 o.maxAddresses

omit [DecidableEq α] in
theorem grouped_of_mem {used : List Nat} {askers : List (Asker ε α)} {slice : Range α} {group : List (Member ε α)}
    (hg : group ∈ groupsOf (max 1 o.maxAddresses - 1) (membersOf o.maxQueries used askers slice)) :
    Grouped o askers slice group where
  listed m hm := List.mem_of_getElem? (mem_membersOf.1 (mem_of_mem_groupsOf hg hm)).1
  parts m hm := (mem_membersOf.1 (mem_of_mem_groupsOf hg hm)).2.2.1
  length_le := by
    have := length_le_of_mem_groupsOf hg
    omega

theorem mem_sliceQueries {index : Index α} {askers : List (Asker ε α)} (hq : q ∈ (sliceQueries o index askers).1) :
    ∃ slice ∈ orderedSlices (max 1 o.maxRange) index askers, ∃ group, Grouped o askers slice group ∧
      ((∃ m ∈ group, ∃ r ∈ m.parts, q = .single m.asker.entity r) ∨
        ∃ range, sharedRange? group = some range ∧ q = sharedQuery group range) := by
  obtain ⟨used, slice, hs, hq⟩ := mem_tally hq
  rw [serveSlice_eq] at hq
  obtain ⟨used', group, hg, hq⟩ := mem_tally hq
  exact ⟨slice, hs, group, grouped_of_mem hg, mem_serveGroup hq⟩

omit [DecidableEq α] in
theorem mem_retryQueries {used : List Nat} {askers : List (Asker ε α)} (hq : q ∈ retryQueries o used askers) :
    ∃ asker ∈ askers, ∃ r ∈ Range.splitAll asker.retries (max 1 o.maxRange), q = .single asker.entity r := by
  obtain ⟨⟨asker, place⟩, ha, hq⟩ := List.mem_flatMap.1 hq
  obtain ⟨r, hr, rfl⟩ := List.mem_map.1 hq
  exact ⟨asker, List.mem_of_getElem? (List.mk_mem_zipIdx_iff_getElem?.1 ha), r, Range.mem_takePieces hr, rfl⟩

variable {index : Index α} {inputs : List (PlanInput ε α)}

theorem sound_optimize [DiscreteAxis α] (hq : q ∈ (optimize o index inputs).queries) : q.Sound := by
  rw [optimize_queries, List.mem_append] at hq
  rcases hq with hq | hq
  · obtain ⟨slice, -, group, -, ⟨m, -, r, -, rfl⟩ | ⟨range, -, rfl⟩⟩ := mem_sliceQueries hq
    · exact Query.sound_single _ r
    · exact sound_sharedQuery group range
  · obtain ⟨asker, -, r, -, rfl⟩ := mem_retryQueries hq
    exact Query.sound_single _ r

theorem mem_entities_optimize (hq : q ∈ (optimize o index inputs).queries) {e : ε} (he : e ∈ q.entities) :
    ∃ input ∈ inputs, input.full.valid = true ∧ input.entity = e := by
  have hasker : ∃ asker ∈ inputs.filterMap (asker? o), asker.entity = e := by
    rw [optimize_queries, List.mem_append] at hq
    rcases hq with hq | hq
    · obtain ⟨slice, -, group, hg, ⟨m, hm, r, -, rfl⟩ | ⟨range, -, rfl⟩⟩ := mem_sliceQueries hq
      · exact ⟨m.asker, hg.listed m hm, (List.mem_singleton.1 he).symm⟩
      · obtain ⟨m, hm, rfl⟩ := List.mem_map.1 he
        exact ⟨m.asker, hg.listed m hm, rfl⟩
    · obtain ⟨asker, ha, r, -, rfl⟩ := mem_retryQueries hq
      exact ⟨asker, ha, (List.mem_singleton.1 he).symm⟩
  obtain ⟨asker, ha, rfl⟩ := hasker
  obtain ⟨input, hin, ha⟩ := List.mem_filterMap.1 ha
  exact ⟨input, hin, valid_of_asker? ha, (entity_of_asker? ha).symm⟩

end Plan

end Backfill
