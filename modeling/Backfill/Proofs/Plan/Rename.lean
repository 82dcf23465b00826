import Backfill.Proofs.Plan.Turns

/-!
# Renaming entities

A plan passes entities on and never looks at them: other names for the entities give the same plan under
these names.
-/

namespace Backfill

variable {ε δ α : Type}

def PlanInput.rename (f : ε → δ) (i : PlanInput ε α) : PlanInput δ α := ⟨f i.entity, i.full, i.covered, i.toRetry⟩

def Query.rename (f : ε → δ) : Query ε α → Query δ α
  | .single e r => .single (f e) r
  | .shared es r needs => .shared (es.map f) r (needs.map fun p => (f p.1, p.2))

theorem Query.shares_rename [Axis α] (f : ε → δ) (who : δ → Bool) (q : Query ε α) :
    Query.shares who (q.rename f) = Query.shares (who ∘ f) q := by
  cases q with
  | single e r => by_cases h : who (f e) <;> simp [Query.shares, Query.rename, Query.served, h]
  | shared es r needs =>
      simp only [Query.shares, Query.rename, Query.served, List.map_map, List.filter_map]
      rfl

namespace Plan

def Asker.rename (f : ε → δ) (a : Asker ε α) : Asker δ α := ⟨f a.entity, a.fresh, a.retries⟩

def Member.rename (f : ε → δ) (m : Member ε α) : Member δ α := ⟨m.place, m.asker.rename f, m.parts⟩

theorem tally_rename {σ β β' γ γ' : Type} {step : σ → β → List γ × σ} {step' : σ → β' → List γ' × σ} {g : β → β'}
    {h : γ → γ'} (hstep : ∀ s x, step' s (g x) = ((step s x).1.map h, (step s x).2)) (xs : List β) (s : σ) :
    tally step' s (xs.map g) = ((tally step s xs).1.map h, (tally step s xs).2) := by
  induction xs generalizing s with
  | nil => rfl
  | cons x xs ih => rw [List.map_cons, tally, hstep, ih, tally, List.map_append]

theorem groupsOf_map {β γ : Type} (f : β → γ) (n : Nat) (xs : List β) :
    groupsOf n (xs.map f) = (groupsOf n xs).map (List.map f) := by
  induction xs using groupsOf.induct n with
  | case1 => simp only [List.map_nil, groupsOf]
  | case2 x rest ih => rw [List.map_cons, groupsOf, groupsOf, ← List.map_take, ← List.map_drop, ih]; rfl

theorem serveAlone_rename (f : ε → δ) (cap : Nat) (used : List Nat) (m : Member ε α) :
    serveAlone cap used (m.rename f) =
      ((serveAlone cap used m).1.map (Query.rename f), (serveAlone cap used m).2) := by
  simp only [serveAlone, List.map_map]
  rfl

theorem sharedQuery_rename [DecidableEq α] (f : ε → δ) (group : List (Member ε α)) (range : Range α) :
    sharedQuery (group.map (Member.rename f)) range = (sharedQuery group range).rename f := by
  simp only [sharedQuery, Query.rename, List.map_map]
  rfl

variable [Axis α]

theorem asker?_rename (f : ε → δ) (o : Options) (i : PlanInput ε α) :
    asker? o (i.rename f) = (asker? o i).map (Asker.rename f) := by
  unfold asker?
  by_cases hv : i.full.valid = true
  · rw [if_pos hv, if_pos (show (i.rename f).full.valid = true from hv)]
    rfl
  · rw [if_neg hv, if_neg (show ¬ (i.rename f).full.valid = true from hv)]
    rfl

theorem askers_rename (f : ε → δ) (o : Options) (inputs : List (PlanInput ε α)) :
    (inputs.map (PlanInput.rename f)).filterMap (asker? o) =
      (inputs.filterMap (asker? o)).map (Asker.rename f) := by
  rw [List.filterMap_map, List.map_filterMap]
  exact congrArg (List.filterMap · inputs) (funext fun i => asker?_rename f o i)

theorem orderedSlices_rename (f : ε → δ) (maxRange : Nat) (index : Index α) (askers : List (Asker ε α)) :
    orderedSlices maxRange index (askers.map (Asker.rename f)) = orderedSlices maxRange index askers := by
  have hfresh : (askers.map (Asker.rename f)).flatMap (·.fresh) = askers.flatMap (·.fresh) := by
    rw [List.flatMap_map]
    rfl
  rw [orderedSlices, hfresh, orderedSlices]

theorem sharedRange?_rename (f : ε → δ) (group : List (Member ε α)) :
    sharedRange? (group.map (Member.rename f)) = sharedRange? group := by
  simp only [sharedRange?, separateCost, List.length_map, List.flatMap_map, List.foldr_map]
  rfl

theorem membersOf_rename (f : ε → δ) (cap : Nat) (used : List Nat) (askers : List (Asker ε α)) (slice : Range α) :
    membersOf cap used (askers.map (Asker.rename f)) slice =
      (membersOf cap used askers slice).map (Member.rename f) := by
  rw [membersOf, membersOf, List.zipIdx_map, List.filterMap_map, List.map_filterMap]
  refine congrArg (List.filterMap · askers.zipIdx) (funext fun p => ?_)
  obtain ⟨a, i⟩ := p
  by_cases hroom : usedBy used i < cap
  · by_cases hparts : Range.clip a.fresh slice = []
    · simp [Asker.rename, hroom, hparts]
    · simp [Asker.rename, Member.rename, hroom, hparts]
  · simp [hroom]

theorem retryQueries_rename (f : ε → δ) (o : Options) (used : List Nat) (askers : List (Asker ε α)) :
    retryQueries o used (askers.map (Asker.rename f)) = (retryQueries o used askers).map (Query.rename f) := by
  rw [retryQueries, retryQueries, List.zipIdx_map, List.flatMap_map, List.map_flatMap]
  refine congrArg (List.flatMap · askers.zipIdx) (funext fun p => ?_)
  obtain ⟨a, i⟩ := p
  rw [List.map_map]
  rfl

variable [DecidableEq α]

theorem serveGroup_rename (f : ε → δ) (cap : Nat) (used : List Nat) (group : List (Member ε α)) :
    serveGroup cap used (group.map (Member.rename f)) =
      ((serveGroup cap used group).1.map (Query.rename f), (serveGroup cap used group).2) := by
  have hr := sharedRange?_rename f group
  cases h : sharedRange? group with
  | some range =>
      rw [h] at hr
      rw [serveGroup_shared h, serveGroup_shared hr, sharedQuery_rename, List.map_map]
      rfl
  | none =>
      rw [h] at hr
      rw [serveGroup_alone h, serveGroup_alone hr]
      exact tally_rename (serveAlone_rename f cap) group used

theorem serveSlice_rename (f : ε → δ) (o : Options) (askers : List (Asker ε α)) (used : List Nat)
    (slice : Range α) : serveSlice o (askers.map (Asker.rename f)) used slice =
      ((serveSlice o askers used slice).1.map (Query.rename f), (serveSlice o askers used slice).2) := by
  rw [serveSlice_eq, serveSlice_eq, membersOf_rename, groupsOf_map]
  exact tally_rename (serveGroup_rename f o.maxQueries) _ used

theorem sliceQueries_rename (f : ε → δ) (o : Options) (index : Index α) (askers : List (Asker ε α)) :
    sliceQueries o index (askers.map (Asker.rename f)) =
      ((sliceQueries o index askers).1.map (Query.rename f), (sliceQueries o index askers).2) := by
  rw [sliceQueries, orderedSlices_rename, List.map_map]
  have hslices := tally_rename (g := id) fun used slice => serveSlice_rename f o askers used slice
  simp only [List.map_id] at hslices
  exact hslices _ _

/-- Renaming commutes with planning. -/
theorem optimize_rename (f : ε → δ) (o : Options) (index : Index α) (inputs : List (PlanInput ε α)) :
    (optimize o index (inputs.map (PlanInput.rename f))).queries =
      (optimize o index inputs).queries.map (Query.rename f) := by
  rw [optimize_queries, optimize_queries, askers_rename, sliceQueries_rename, retryQueries_rename,
    List.map_append]

end Plan

end Backfill
