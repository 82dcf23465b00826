import Backfill.Plan.Optimize
import Backfill.Proofs.Plan.Tally
import Backfill.Proofs.Range.Split

/-!
# What a plan gives to one entity

Seen from one entity, a plan is a walk over the slices. In each slice the entity gets all that it misses
there as part of a shared query, or the newest parts in queries of its own as far as its cap allows, or
nothing. Its retries follow in the room that is left.
-/

namespace Backfill

variable {ε α : Type} [Axis α]

/-- What a query gives to the entities that `who` picks, entry by entry. -/
def Query.shares (who : ε → Bool) (q : Query ε α) : List (List (Range α)) :=
  (q.served.filter (who ·.1)).map (·.2)

namespace Plan

/-- What queries give to the entities that `who` picks, query by query. -/
def shares (who : ε → Bool) (queries : List (Query ε α)) : List (List (Range α)) :=
  queries.flatMap (Query.shares who)

/-- What one slice gives to an entity that took part in `used` queries and misses `parts` there. -/
inductive Turn (cap used : Nat) (parts : List (Range α)) : List (List (Range α)) → Prop
  | passed : cap ≤ used ∨ parts = [] → Turn cap used parts []
  | together : used < cap → parts ≠ [] → Turn cap used parts [parts]
  | alone : used < cap → parts ≠ [] → Turn cap used parts ((parts.reverse.take (cap - used)).map ([·]))

/-- What slices give to an entity one after another. -/
inductive Turns (cap : Nat) (fresh : List (Range α)) : Nat → List (Range α) → List (List (Range α)) → Prop
  | nil {used : Nat} : Turns cap fresh used [] []
  | cons {used : Nat} {slice : Range α} {slices : List (Range α)} {now later : List (List (Range α))} :
    Turn cap used (Range.clip fresh slice) now → Turns cap fresh (used + now.length) slices later →
    Turns cap fresh used (slice :: slices) (now ++ later)

/-! ## Counts -/

theorem usedBy_modify {used : List Nat} {place : Nat} (h : place < used.length) (i n : Nat) :
    usedBy (used.modify i (· + n)) place = usedBy used place + if i = place then n else 0 := by
  simp only [usedBy, List.getD_eq_getElem?_getD, List.getElem?_modify, List.getElem?_eq_getElem h]
  split <;> simp

theorem length_foldl_modify (places used : List Nat) :
    (places.foldl (fun used i => used.modify i (· + 1)) used).length = used.length := by
  induction places generalizing used with
  | nil => rfl
  | cons i places ih => rw [List.foldl_cons, ih, List.length_modify]

theorem usedBy_foldl_modify {places used : List Nat} {place : Nat} (h : place < used.length) :
    usedBy (places.foldl (fun used i => used.modify i (· + 1)) used) place =
      usedBy used place + places.count place := by
  induction places generalizing used with
  | nil => rfl
  | cons i places ih =>
      rw [List.foldl_cons, ih (by rw [List.length_modify]; exact h), usedBy_modify h, List.count_cons]
      by_cases hi : i = place
      · simp [hi]
        omega
      · simp [hi]

theorem filter_eq_singleton {β : Type} {p : β → Bool} {xs : List β} {x : β} (hx : x ∈ xs) (hp : p x = true)
    (hpair : xs.Pairwise fun a b => ¬ (p a = true ∧ p b = true)) : xs.filter p = [x] := by
  induction xs with
  | nil => simp at hx
  | cons y xs ih =>
      obtain ⟨hy, hpair⟩ := List.pairwise_cons.1 hpair
      rcases List.mem_cons.1 hx with rfl | hx
      · have hrest : xs.filter p = [] := by
          rw [List.filter_eq_nil_iff]
          exact fun z hz hpz => hy z hz ⟨hp, hpz⟩
        rw [List.filter_cons_of_pos hp, hrest]
      · rw [List.filter_cons_of_neg fun hpy => hy x hx ⟨hpy, hp⟩]
        exact ih hx hpair

/-! ## Shared queries -/

theorem hull?_of_sharedRange? {group : List (Member ε α)} {range : Range α}
    (h : sharedRange? group = some range) : Range.hull? (group.flatMap (·.parts)) = some range := by
  unfold sharedRange? at h
  split at h
  · cases h
  · split at h
    · cases h
    · rename_i hull hh
      split at h
      · rw [hh, h]
      · cases h

theorem served_sharedQuery [DiscreteAxis α] [DecidableEq α] {group : List (Member ε α)} {range : Range α}
    (hm : ∀ m ∈ group, Range.Merged m.parts) (hr : sharedRange? group = some range) :
    (sharedQuery group range).served = group.map fun m => (m.asker.entity, m.parts) := by
  simp only [sharedQuery, Query.served, List.map_map]
  refine List.map_congr_left fun m hmem => ?_
  simp only [Function.comp_apply, Prod.mk.injEq, true_and]
  split
  · rename_i h
    split at h
    · rename_i hparts
      exact hparts.symm
    · cases h
  · rename_i parts h
    split at h
    · cases h
    · cases h
      refine (hm m hmem).clip_eq fun r hrm x hx => ?_
      exact Range.mem_of_hull? (hull?_of_sharedRange? hr) (List.mem_flatMap.2 ⟨m, hmem, hrm⟩) hx

theorem shares_sharedQuery [DiscreteAxis α] [DecidableEq α] {who : ε → Bool} {group : List (Member ε α)}
    {range : Range α} (hm : ∀ m ∈ group, Range.Merged m.parts) (hr : sharedRange? group = some range) :
    shares who [sharedQuery group range] = (group.filter (who ·.asker.entity)).map (·.parts) := by
  rw [shares, List.flatMap_singleton, Query.shares, served_sharedQuery hm hr, List.filter_map, List.map_map]
  rfl

/-! ## Queries of one entity -/

/-- The queries of a member that is served alone. -/
def serveAlone (cap : Nat) (used : List Nat) (m : Member ε α) : List (Query ε α) × List Nat :=
  let parts := m.parts.reverse.take (cap - usedBy used m.place)
  (parts.map (.single m.asker.entity ·), used.modify m.place (· + parts.length))

theorem shares_map_single (who : ε → Bool) (entity : ε) (parts : List (Range α)) :
    shares who (parts.map (.single entity ·)) = if who entity then parts.map ([·]) else [] := by
  induction parts with
  | nil => simp [shares]
  | cons p parts ih =>
      rw [shares, List.map_cons, List.flatMap_cons, ← shares, ih]
      by_cases h : who entity <;> simp [Query.shares, Query.served, h]

omit [Axis α] in
theorem length_serveAlone (cap : Nat) (used : List Nat) (m : Member ε α) :
    (serveAlone cap used m).2.length = used.length := List.length_modify ..

theorem serveGroup_shared [DecidableEq α] {cap : Nat} {used : List Nat} {group : List (Member ε α)}
    {range : Range α} (h : sharedRange? group = some range) : serveGroup cap used group =
      ([sharedQuery group range], (group.map (·.place)).foldl (fun used i => used.modify i (· + 1)) used) := by
  simp only [serveGroup, h, List.foldl_map]

theorem serveGroup_alone [DecidableEq α] {cap : Nat} {used : List Nat} {group : List (Member ε α)}
    (h : sharedRange? group = none) : serveGroup cap used group = tally (serveAlone cap) used group := by
  simp only [serveGroup, h]
  exact foldl_eq_tally (serveAlone cap) group [] used

theorem length_serveGroup [DecidableEq α] (cap : Nat) (used : List Nat) (group : List (Member ε α)) :
    (serveGroup cap used group).2.length = used.length := by
  cases h : sharedRange? group with
  | some range =>
      rw [serveGroup_shared h]
      exact length_foldl_modify _ used
  | none =>
      rw [serveGroup_alone h]
      exact tally_inv (·.length = used.length) (fun u m _ hu => (length_serveAlone cap u m).trans hu) rfl

/-! ## One group -/

/-- In a group the entities that `who` picks stand at one place, and no place comes twice. -/
structure Picks (who : ε → Bool) (place : Nat) (group : List (Member ε α)) : Prop where
  who_iff : ∀ m ∈ group, who m.asker.entity = true ↔ m.place = place
  distinct : group.Pairwise fun a b => a.place ≠ b.place
  merged : ∀ m ∈ group, Range.Merged m.parts

section Group

variable {cap : Nat} {who : ε → Bool} {place : Nat} {group : List (Member ε α)}

theorem Picks.pairwise (h : Picks who place group) :
    group.Pairwise fun a b => ¬ (who a.asker.entity = true ∧ who b.asker.entity = true) := by
  refine h.distinct.imp_of_mem ?_
  intro a b ha hb hab hwho
  exact hab (((h.who_iff a ha).1 hwho.1).trans ((h.who_iff b hb).1 hwho.2).symm)

theorem serveAlone_quiet {m : Member ε α} (hm : who m.asker.entity = true ↔ m.place = place)
    (hwho : ¬ who m.asker.entity = true) :
    Quiet (serveAlone cap) (place < ·.length) (Query.shares who) (usedBy · place) m := by
  intro used hu
  have hplace : m.place ≠ place := fun h => hwho (hm.2 h)
  refine ⟨?_, ?_⟩
  · exact (shares_map_single who _ _).trans (if_neg hwho)
  · exact (usedBy_modify hu _ _).trans (by rw [if_neg hplace, Nat.add_zero])

variable [DiscreteAxis α] [DecidableEq α]

theorem serveGroup_quiet (h : Picks who place group) (hno : ∀ m ∈ group, ¬ who m.asker.entity = true) :
    Quiet (serveGroup cap) (place < ·.length) (Query.shares who) (usedBy · place) group := by
  intro used hu
  cases hs : sharedRange? group with
  | some range =>
      have hfilter : group.filter (who ·.asker.entity) = [] := List.filter_eq_nil_iff.2 hno
      have hcount : (group.map (·.place)).count place = 0 := by
        rw [List.count_eq_zero, List.mem_map]
        rintro ⟨m, hm, hp⟩
        exact hno m hm ((h.who_iff m hm).2 hp)
      rw [serveGroup_shared hs]
      refine ⟨?_, ?_⟩
      · exact (shares_sharedQuery h.merged hs).trans (by rw [hfilter, List.map_nil])
      · exact (usedBy_foldl_modify hu).trans (by rw [hcount, Nat.add_zero])
  | none =>
      rw [serveGroup_alone hs]
      refine tally_quiet (fun m hm => serveAlone_quiet (h.who_iff m hm) (hno m hm)) ?_ hu
      intro u m _ hu
      rwa [length_serveAlone]

/-- A picked member with room gets its parts together, or the newest of them alone. -/
theorem serveGroup_turn (h : Picks who place group) {m : Member ε α} (hm : m ∈ group)
    (hwho : who m.asker.entity = true) {used : List Nat} (hu : place < used.length)
    (hroom : usedBy used place < cap) (hparts : m.parts ≠ []) :
    Turn cap (usedBy used place) m.parts (shares who (serveGroup cap used group).1) ∧
      usedBy (serveGroup cap used group).2 place =
        usedBy used place + (shares who (serveGroup cap used group).1).length := by
  have hplace : m.place = place := (h.who_iff m hm).1 hwho
  cases hs : sharedRange? group with
  | some range =>
      have hfilter : group.filter (who ·.asker.entity) = [m] := filter_eq_singleton hm hwho h.pairwise
      have hcount : (group.map (·.place)).count place = 1 :=
        List.count_eq_one_of_mem (List.pairwise_map.2 h.distinct) (List.mem_map.2 ⟨m, hm, hplace⟩)
      rw [serveGroup_shared hs, shares_sharedQuery h.merged hs, hfilter, usedBy_foldl_modify hu, hcount]
      exact ⟨.together hroom hparts, rfl⟩
  | none =>
      have hquiet : ∀ a ∈ group, ¬ who a.asker.entity = true →
          Quiet (serveAlone cap) (place < ·.length) (Query.shares who) (usedBy · place) a :=
        fun a ha hno => serveAlone_quiet (h.who_iff a ha) hno
      have hinv : ∀ u : List Nat, ∀ a ∈ group, place < u.length → place < (serveAlone cap u a).2.length := by
        intro u a _ hu
        rwa [length_serveAlone]
      obtain ⟨used', hu', hview, hout, hafter⟩ := tally_once hquiet hinv h.pairwise hm hwho hu
      have hgot : shares who (tally (serveAlone cap) used group).1 =
          (m.parts.reverse.take (cap - usedBy used place)).map ([·]) := by
        rw [shares, hout]
        refine (shares_map_single who _ _).trans ?_
        rw [if_pos hwho, hplace, hview]
      rw [serveGroup_alone hs, hgot, hafter, List.length_map]
      refine ⟨.alone hroom hparts, ?_⟩
      refine (usedBy_modify hu' _ _).trans ?_
      rw [if_pos hplace, hplace, hview]

end Group

end Plan

end Backfill
