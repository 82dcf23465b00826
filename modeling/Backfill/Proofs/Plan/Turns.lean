import Backfill.Proofs.Plan.Shares

/-!
# One entity's way through a plan

The entity's askers stand at one place of the plan's counts, and every slice gives it one turn. Its
retries take the room that the turns leave.
-/

namespace Backfill.Plan

variable {ε α : Type} [Axis α] {o : Options} {who : ε → Bool} {askers : List (Asker ε α)} {place : Nat}
  {asker : Asker ε α}

/-- The one asker that `who` picks stands at `place`. -/
structure Stands (who : ε → Bool) (askers : List (Asker ε α)) (place : Nat) (asker : Asker ε α) : Prop where
  getElem?_eq : askers[place]? = some asker
  who_iff : ∀ i a, askers[i]? = some a → (who a.entity = true ↔ i = place)

omit [Axis α] in
theorem Stands.picked (h : Stands who askers place asker) : who asker.entity = true :=
  (h.who_iff place asker h.getElem?_eq).2 rfl

/-! ## Members of a slice -/

theorem pairwise_zipIdx {β : Type} (xs : List β) : xs.zipIdx.Pairwise fun a b => a.2 ≠ b.2 := by
  apply List.pairwise_map.1
  change (xs.zipIdx.map Prod.snd).Nodup
  rw [List.zipIdx_map_snd]
  exact List.nodup_range'

theorem mem_membersOf {cap : Nat} {used : List Nat} {slice : Range α} {m : Member ε α} :
    m ∈ membersOf cap used askers slice ↔ askers[m.place]? = some m.asker ∧ usedBy used m.place < cap ∧
      m.parts = Range.clip m.asker.fresh slice ∧ m.parts ≠ [] := by
  simp only [membersOf, List.mem_filterMap, Prod.exists]
  constructor
  · rintro ⟨asker, i, hmem, hm⟩
    rw [List.mk_mem_zipIdx_iff_getElem?] at hmem
    split at hm
    · rename_i hroom
      split at hm
      · cases hm
      · rename_i hne
        cases hm
        exact ⟨hmem, hroom, rfl, fun h => hne (List.isEmpty_iff.2 h)⟩
    · cases hm
  · rintro ⟨hat, hroom, hparts, hne⟩
    refine ⟨m.asker, m.place, List.mk_mem_zipIdx_iff_getElem?.2 hat, ?_⟩
    rw [if_pos hroom, ← hparts, if_neg fun h => hne (List.isEmpty_iff.1 h)]

theorem distinct_membersOf (cap : Nat) (used : List Nat) (askers : List (Asker ε α)) (slice : Range α) :
    (membersOf cap used askers slice).Pairwise fun a b => a.place ≠ b.place := by
  unfold membersOf
  apply (pairwise_zipIdx askers).filterMap
  rintro ⟨a, i⟩ ⟨b, j⟩ hij m hm n hn
  dsimp only at hm hn hij
  split at hm
  · split at hn
    · split at hm <;> simp only [Option.some.injEq, reduceCtorEq] at hm
      split at hn <;> simp only [Option.some.injEq, reduceCtorEq] at hn
      subst m n
      exact hij
    · cases hn
  · cases hm

theorem Stands.picks [DiscreteAxis α] (h : Stands who askers place asker) (cap : Nat) (used : List Nat)
    (slice : Range α) : Picks who place (membersOf cap used askers slice) where
  who_iff m hm := h.who_iff m.place m.asker (mem_membersOf.1 hm).1
  distinct := distinct_membersOf cap used askers slice
  merged m hm := by
    rw [(mem_membersOf.1 hm).2.2.1]
    exact Range.merged_clip m.asker.fresh slice

/-! ## Groups of a slice -/

theorem flatten_groupsOf {β : Type} (n : Nat) (xs : List β) : (groupsOf n xs).flatten = xs := by
  induction xs using groupsOf.induct n with
  | case1 => rw [groupsOf, List.flatten_nil]
  | case2 x rest ih => rw [groupsOf, List.flatten_cons, ih, List.cons_append, List.take_append_drop]

theorem mem_of_mem_groupsOf {β : Type} {n : Nat} {xs group : List β} (hg : group ∈ groupsOf n xs) {x : β}
    (hx : x ∈ group) : x ∈ xs := by
  rw [← flatten_groupsOf n xs]
  exact List.mem_flatten.2 ⟨group, hg, hx⟩

theorem length_le_of_mem_groupsOf {β : Type} {n : Nat} {xs group : List β} (hg : group ∈ groupsOf n xs) :
    group.length ≤ n + 1 := by
  induction xs using groupsOf.induct n with
  | case1 => simp [groupsOf] at hg
  | case2 x rest ih =>
      rw [groupsOf] at hg
      rcases List.mem_cons.1 hg with rfl | hg
      · rw [List.length_cons, List.length_take]
        omega
      · exact ih hg

theorem Picks.of_mem_groupsOf {n : Nat} {members group : List (Member ε α)} (h : Picks who place members)
    (hg : group ∈ groupsOf n members) : Picks who place group where
  who_iff m hm := h.who_iff m (mem_of_mem_groupsOf hg hm)
  distinct := by
    have hd := h.distinct
    rw [← flatten_groupsOf n members] at hd
    exact (List.pairwise_flatten.1 hd).1 group hg
  merged m hm := h.merged m (mem_of_mem_groupsOf hg hm)

theorem Picks.pairwise_groupsOf {members : List (Member ε α)} (h : Picks who place members) (n : Nat) :
    (groupsOf n members).Pairwise fun a b =>
      ¬ ((∃ m ∈ a, who m.asker.entity = true) ∧ ∃ m ∈ b, who m.asker.entity = true) := by
  have hp := h.pairwise
  rw [← flatten_groupsOf n members] at hp
  refine (List.pairwise_flatten.1 hp).2.imp ?_
  rintro a b hab ⟨⟨m, hm, hwm⟩, k, hk, hwk⟩
  exact hab m hm k hk ⟨hwm, hwk⟩

/-! ## One slice -/

variable [DecidableEq α]

theorem serveSlice_eq (o : Options) (askers : List (Asker ε α)) (used : List Nat) (slice : Range α) :
    serveSlice o askers used slice = tally (serveGroup o.maxQueries) used
      (groupsOf (max 1 o.maxAddresses - 1) (membersOf o.maxQueries used askers slice)) :=
  foldl_eq_tally (serveGroup o.maxQueries) _ [] used

theorem length_serveSlice (o : Options) (askers : List (Asker ε α)) (used : List Nat) (slice : Range α) :
    (serveSlice o askers used slice).2.length = used.length := by
  rw [serveSlice_eq]
  refine tally_inv (fun u : List Nat => u.length = used.length) ?_ rfl
  intro u group _ hu
  rwa [length_serveGroup]

/-- The queries of all slices and the counts after them. -/
def sliceQueries (o : Options) (index : Index α) (askers : List (Asker ε α)) : List (Query ε α) × List Nat :=
  tally (serveSlice o askers) (askers.map fun _ => 0) (orderedSlices (max 1 o.maxRange) index askers)

theorem optimize_queries (o : Options) (index : Index α) (inputs : List (PlanInput ε α)) :
    (optimize o index inputs).queries =
      (sliceQueries o index (inputs.filterMap (asker? o))).1 ++
        retryQueries o (sliceQueries o index (inputs.filterMap (asker? o))).2 (inputs.filterMap (asker? o)) := by
  generalize haskers : inputs.filterMap (asker? o) = askers
  have hfold := foldl_eq_tally (serveSlice o askers) (orderedSlices (max 1 o.maxRange) index askers) []
    (askers.map fun _ => 0)
  rw [List.nil_append] at hfold
  simp only [optimize, sliceQueries, haskers]
  exact congrArg (fun p => p.1 ++ retryQueries o p.2 askers) hfold

variable [DiscreteAxis α]

theorem serveSlice_turn (h : Stands who askers place asker) {used : List Nat} (hu : place < used.length)
    (slice : Range α) :
    Turn o.maxQueries (usedBy used place) (Range.clip asker.fresh slice)
        (shares who (serveSlice o askers used slice).1) ∧
      usedBy (serveSlice o askers used slice).2 place =
        usedBy used place + (shares who (serveSlice o askers used slice).1).length := by
  rw [serveSlice_eq]
  have hpicks := h.picks o.maxQueries used slice
  generalize hgroups : groupsOf (max 1 o.maxAddresses - 1) (membersOf o.maxQueries used askers slice) = groups
  have hquiet : ∀ group ∈ groups, ¬ (∃ m ∈ group, who m.asker.entity = true) →
      Quiet (serveGroup o.maxQueries) (place < ·.length) (Query.shares who) (usedBy · place) group := by
    intro group hg hno
    rw [← hgroups] at hg
    exact serveGroup_quiet (hpicks.of_mem_groupsOf hg) fun m hm hw => hno ⟨m, hm, hw⟩
  have hinv : ∀ u : List Nat, ∀ group ∈ groups, place < u.length →
      place < (serveGroup o.maxQueries u group).2.length := by
    intro u group _ hu
    rwa [length_serveGroup]
  by_cases hin : ∃ m ∈ membersOf o.maxQueries used askers slice, who m.asker.entity = true
  · obtain ⟨m, hm, hwho⟩ := hin
    obtain ⟨hat, hroom, hparts, hne⟩ := mem_membersOf.1 hm
    have hplace : m.place = place := (hpicks.who_iff m hm).1 hwho
    obtain rfl : m.asker = asker := Option.some.inj (hat.symm.trans (hplace ▸ h.getElem?_eq))
    obtain ⟨group, hg, hmg⟩ : ∃ group ∈ groups, m ∈ group := by
      rw [← hgroups]
      exact List.mem_flatten.1 ((flatten_groupsOf _ _).symm ▸ hm)
    have hpair := hpicks.pairwise_groupsOf (max 1 o.maxAddresses - 1)
    rw [hgroups] at hpair
    obtain ⟨used', hu', hview, hout, hafter⟩ := tally_once hquiet hinv hpair hg ⟨m, hmg, hwho⟩ hu
    rw [← hgroups] at hg
    rw [hplace, ← hview] at hroom
    obtain ⟨hturn, hcount⟩ := serveGroup_turn (hpicks.of_mem_groupsOf hg) hmg hwho hu' hroom hne
    rw [shares, hout, hafter, ← hparts, ← hview]
    exact ⟨hturn, hcount⟩
  · have hno : ∀ group ∈ groups, ¬ ∃ m ∈ group, who m.asker.entity = true := by
      rintro group hg ⟨m, hm, hwho⟩
      rw [← hgroups] at hg
      exact hin ⟨m, mem_of_mem_groupsOf hg hm, hwho⟩
    obtain ⟨hout, hview⟩ := tally_quiet (fun group hg => hquiet group hg (hno group hg)) hinv hu
    rw [shares, hout, hview]
    refine ⟨.passed ?_, rfl⟩
    by_contra hturn
    obtain ⟨hroom, hne⟩ := not_or.1 hturn
    exact hin ⟨⟨place, asker, Range.clip asker.fresh slice⟩,
      mem_membersOf.2 ⟨h.getElem?_eq, Nat.lt_of_not_le hroom, rfl, hne⟩, h.picked⟩

/-! ## All slices and the retries -/

theorem turns_tally (h : Stands who askers place asker) (slices : List (Range α)) {used : List Nat}
    (hu : place < used.length) :
    Turns o.maxQueries asker.fresh (usedBy used place) slices
        (shares who (tally (serveSlice o askers) used slices).1) ∧
      usedBy (tally (serveSlice o askers) used slices).2 place =
        usedBy used place + (shares who (tally (serveSlice o askers) used slices).1).length := by
  induction slices generalizing used with
  | nil => exact ⟨.nil, rfl⟩
  | cons slice slices ih =>
      obtain ⟨hturn, hcount⟩ := serveSlice_turn (o := o) h hu slice
      have hlater : place < (serveSlice o askers used slice).2.length := by rwa [length_serveSlice]
      obtain ⟨hturns, hcounts⟩ := ih hlater
      rw [hcount] at hturns hcounts
      simp only [tally, shares, List.flatMap_append] at *
      refine ⟨.cons hturn hturns, ?_⟩
      rw [hcounts, List.length_append, Nat.add_assoc]

omit [DecidableEq α] [DiscreteAxis α] in
theorem shares_retryQueries (h : Stands who askers place asker) (used : List Nat) :
    shares who (retryQueries o used askers) = (Range.takePieces asker.retries (max 1 o.maxRange)
      (o.maxQueries - usedBy used place) .newestFirst).map ([·]) := by
  have hquiet : ∀ p ∈ askers.zipIdx, ¬ who p.1.entity = true →
      Quiet (fun (u : Unit) p => ((Range.takePieces p.1.retries (max 1 o.maxRange)
          (o.maxQueries - usedBy used p.2) .newestFirst).map (Query.single p.1.entity ·), u))
        (fun _ => True) (Query.shares who) id p :=
    fun p _ hno u _ => ⟨(shares_map_single who _ _).trans (if_neg hno), rfl⟩
  have hpair : askers.zipIdx.Pairwise fun p q => ¬ (who p.1.entity = true ∧ who q.1.entity = true) := by
    refine (pairwise_zipIdx askers).imp_of_mem ?_
    rintro ⟨a, i⟩ ⟨b, j⟩ ha hb hij ⟨hwa, hwb⟩
    rw [List.mk_mem_zipIdx_iff_getElem?] at ha hb
    exact hij (((h.who_iff i a ha).1 hwa).trans ((h.who_iff j b hb).1 hwb).symm)
  obtain ⟨u, -, -, hout, -⟩ := tally_once hquiet (fun _ _ _ _ => trivial) hpair
    (List.mk_mem_zipIdx_iff_getElem?.2 h.getElem?_eq) h.picked trivial
  rw [retryQueries, flatMap_eq_tally, shares]
  exact hout.trans ((shares_map_single who _ _).trans (if_pos h.picked))

end Backfill.Plan
