import Backfill.Assignment
import Backfill.Proofs.Plan.Exactness
import Backfill.Proofs.Plan.Slices
import Backfill.Proofs.Plan.Window
import Backfill.Proofs.Store.Successes

/-!
# Historical passes come to an end

Passes that succeed shrink what every entity needs until nothing is left: a pass gives an entity only what
it needs, and something as long as it needs anything, whatever the caps and however the slices cut.
-/

namespace Backfill.Plan

open Range (Separate values)

/-! ## Passes -/

/-- The planner's inputs for some entities without a hint about what was imported last. -/
def passInputs (ctx : PassContext) (entities : List Entity) (s : Store) : List (PlanInput Entity UInt64) :=
  entities.filterMap fun e => (planInput ctx none e (s.get? e.importKey)).toOption

theorem inputs_eq_passInputs (a : Assignment) (latest : UInt64) (s : Store) :
    a.inputs latest {} s = passInputs (a.passContext latest) a.entities s := by
  simp only [Assignment.inputs, passInputs, Keyed.get?_empty]

/-- The queries of a pass. -/
def passQueries (o : Options) (ctx : PassContext) (entities : List Entity) (index : Index UInt64) (s : Store) :
    List (Query Entity UInt64) :=
  (optimize o index (passInputs ctx entities s)).queries

/-- The outcomes of queries that all succeeded. -/
def successes (queries : List (Query Entity UInt64)) : List (Outcome UInt64) :=
  queries.flatMap fun q => q.served.flatMap fun p => p.2.map fun r => ⟨p.1.importKey, r, true⟩

theorem succeededFor_successes (key : String) (queries : List (Query Entity UInt64)) :
    Outcome.succeededFor key (successes queries) = given (·.importKey == key) queries := by
  have hserved : ∀ served : List (Entity × List (Range UInt64)),
      Outcome.succeededFor key (served.flatMap fun p => p.2.map fun r => ⟨p.1.importKey, r, true⟩) =
        ((served.filter (·.1.importKey == key)).map (·.2)).flatten := by
    intro served
    induction served with
    | nil => rfl
    | cons p served ih =>
        rw [List.flatMap_cons, Outcome.succeededFor_append, ih]
        by_cases hp : p.1.importKey = key
        · simp [Outcome.succeededFor, hp, List.filter_map, Function.comp_def]
        · simp [Outcome.succeededFor, hp, List.filter_map, Function.comp_def]
  induction queries with
  | nil => rfl
  | cons q queries ih =>
      rw [successes, List.flatMap_cons, Outcome.succeededFor_append, ← successes, ih, hserved, given, given,
        shares, shares, List.flatMap_cons, List.flatten_append]
      rfl

/-- The slices of the index neither overlap nor leave out anything that the planner asks for. -/
structure Admits (o : Options) (ctx : PassContext) (entities : List Entity) (index : Index UInt64) (s : Store) :
    Prop where
  separate : Separate (index.slices (requested o (passInputs ctx entities s)))
  covering : values (requested o (passInputs ctx entities s)) ⊆
    values (index.slices (requested o (passInputs ctx entities s)))

/-- The store after a pass whose queries all succeed, in whatever order and groups this is merged. -/
def Succeeds (o : Options) (ctx : PassContext) (entities : List Entity) (index : Index UInt64) (s s' : Store) :
    Prop :=
  ∃ groups : List SuccessGroup,
    (groups.flatMap (·.outcomes)).Perm (successes (passQueries o ctx entities index s)) ∧
      s' = s.serveAll (groups.map (·.call))

/-- So many passes, one after another, each with an index of its own. -/
inductive Passes (o : Options) (ctx : PassContext) (entities : List Entity) (s : Store) : Nat → Store → Prop
  | zero : Passes o ctx entities s 0 s
  | succ {n : Nat} {s' s'' : Store} {index : Index UInt64} : Passes o ctx entities s n s' →
    Admits o ctx entities index s' → Succeeds o ctx entities index s' s'' → Passes o ctx entities s (n + 1) s''

/-- The blocks that a pass considers for an entity. -/
def considered (ctx : PassContext) (s : Store) (e : Entity) : Set UInt64 :=
  {x | ∃ input, planInput ctx none e (s.get? e.importKey) = .ok input ∧ x ∈ input.full}

/-- The blocks that an entity needs. -/
def needed (ctx : PassContext) (s : Store) (e : Entity) : Set UInt64 :=
  {x | ∃ input, planInput ctx none e (s.get? e.importKey) = .ok input ∧ x ∈ input.needed}

/-- Every entity has a state of blocks under its own key, and a range to consider. -/
def Ready (ctx : PassContext) (entities : List Entity) (s : Store) : Prop :=
  ∀ e ∈ entities, ∃ state input, s.get? e.importKey = some state ∧ state.importKey = e.importKey ∧
    state.RecordsBlocks ∧ planInput ctx none e (some state) = .ok input

section

variable {o : Options} {ctx : PassContext} {entities : List Entity} {s s' : Store} {e : Entity}
  {input : PlanInput Entity UInt64} {state : ImportState}

theorem needed_eq_of_planInput (h : planInput ctx none e (s.get? e.importKey) = .ok input) :
    needed ctx s e = input.needed := by
  ext x
  constructor
  · rintro ⟨other, ho, hx⟩
    rw [h, Except.ok.injEq] at ho
    exact ho ▸ hx
  · exact fun hx => ⟨input, h, hx⟩

theorem considered_eq_of_planInput (h : planInput ctx none e (s.get? e.importKey) = .ok input) (x : UInt64) :
    x ∈ considered ctx s e ↔ x ∈ input.full := by
  constructor
  · rintro ⟨other, ho, hx⟩
    rw [h, Except.ok.injEq] at ho
    exact ho ▸ hx
  · exact fun hx => ⟨input, h, hx⟩

theorem needed_eq (h : History ctx) (hs : s.get? e.importKey = some state) :
    needed ctx s e = {x | x ∈ considered ctx s e ∧ (x ∉ values state.covered ∨ x ∈ values state.toRetry)} := by
  ext x
  constructor
  · rintro ⟨input, hin, hx, hwhy⟩
    rw [hs] at hin
    refine ⟨⟨input, by rwa [hs], hx⟩, ?_⟩
    rwa [h.covered hin, h.mem_toRetry hin hx] at hwhy
  · rintro ⟨⟨input, hin, hx⟩, hwhy⟩
    rw [hs] at hin
    refine ⟨input, by rwa [hs], hx, ?_⟩
    rwa [h.covered hin, h.mem_toRetry hin hx]

theorem only_passInputs (hkeys : (entities.map (·.importKey)).Nodup) (he : e ∈ entities)
    (h : planInput ctx none e (s.get? e.importKey) = .ok input) :
    Only (·.importKey == e.importKey) (passInputs ctx entities s) input where
  mem := List.mem_filterMap.2 ⟨e, he, by rw [h]; rfl⟩
  picked := by rw [entity_of_planInput h, beq_self_eq_true]
  pairwise := by
    refine (List.pairwise_map.1 hkeys).filterMap _ ?_
    rintro a b hab i hi j hj ⟨hia, hjb⟩
    rw [entity_of_planInput (planInput_of_toOption hi)] at hia
    rw [entity_of_planInput (planInput_of_toOption hj)] at hjb
    exact hab ((eq_of_beq hia).trans (eq_of_beq hjb).symm)

/-! ## One pass -/

variable {index : Index UInt64}

/-- What a pass gives to an entity. -/
def passGiven (o : Options) (ctx : PassContext) (entities : List Entity) (index : Index UInt64) (s : Store)
    (e : Entity) : Set UInt64 :=
  values (given (·.importKey == e.importKey) (passQueries o ctx entities index s))

theorem advanced_of_succeeds (hs : s.get? e.importKey = some state) (hkey : state.importKey = e.importKey)
    (hb : state.RecordsBlocks) (h : Succeeds o ctx entities index s s') :
    ∃ state', s'.get? e.importKey = some state' ∧
      Advanced state (passGiven o ctx entities index s e) state' := by
  obtain ⟨groups, hperm, rfl⟩ := h
  obtain ⟨state', hs', hadv⟩ := advanced_serveAll groups hs hkey hb
  rw [Range.values_perm (Outcome.succeededFor_perm _ hperm), succeededFor_successes] at hadv
  exact ⟨state', hs', hadv⟩

theorem Ready.succeeds (hr : Ready ctx entities s) (hist : History ctx) (h : Succeeds o ctx entities index s s') :
    Ready ctx entities s' := by
  intro e he
  obtain ⟨state, input, hs, hkey, hb, hin⟩ := hr e he
  obtain ⟨state', hs', hadv⟩ := advanced_of_succeeds hs hkey hb h
  obtain ⟨input', hin', -⟩ := hist.full_congr hadv.createdAt hin
  exact ⟨state', input', hs', hadv.importKey.trans hkey, hadv.recordsBlocks, hin'⟩

theorem considered_of_succeeds (hr : Ready ctx entities s) (hist : History ctx) (he : e ∈ entities)
    (h : Succeeds o ctx entities index s s') : considered ctx s' e = considered ctx s e := by
  obtain ⟨state, input, hs, hkey, hb, hin⟩ := hr e he
  obtain ⟨state', hs', hadv⟩ := advanced_of_succeeds hs hkey hb h
  obtain ⟨input', hin', hfull⟩ := hist.full_congr hadv.createdAt hin
  rw [← hs] at hin
  rw [← hs'] at hin'
  ext x
  rw [considered_eq_of_planInput hin', considered_eq_of_planInput hin, hfull]

theorem needed_of_succeeds (hr : Ready ctx entities s) (hist : History ctx) (he : e ∈ entities)
    (h : Succeeds o ctx entities index s s') :
    needed ctx s' e = needed ctx s e \ passGiven o ctx entities index s e := by
  obtain ⟨state, input, hs, hkey, hb, hin⟩ := hr e he
  obtain ⟨state', hs', hadv⟩ := advanced_of_succeeds hs hkey hb h
  rw [needed_eq hist hs, needed_eq hist hs', considered_of_succeeds hr hist he h, hadv.covered, hadv.toRetry]
  ext x
  simp only [Set.mem_ofPred_eq, Set.mem_union, Set.mem_sdiff]
  tauto

theorem passGiven_nonempty (hcap : 1 ≤ o.maxQueries) (hkeys : (entities.map (·.importKey)).Nodup)
    (hadmits : Admits o ctx entities index s) (he : e ∈ entities) (hneed : (needed ctx s e).Nonempty) :
    (needed ctx s e ∩ passGiven o ctx entities index s e).Nonempty := by
  obtain ⟨-, input, hin, -⟩ := id hneed
  have honly := only_passInputs hkeys he hin
  rw [needed_eq_of_planInput hin] at hneed ⊢
  have hsub : passGiven o ctx entities index s e ⊆ input.needed := honly.given_subset
  rw [Set.inter_eq_right.2 hsub]
  exact honly.given_nonempty hadmits.separate hadmits.covering hcap hneed

theorem needed_ssubset (hcap : 1 ≤ o.maxQueries) (hkeys : (entities.map (·.importKey)).Nodup)
    (hr : Ready ctx entities s) (hist : History ctx) (hadmits : Admits o ctx entities index s)
    (h : Succeeds o ctx entities index s s') (he : e ∈ entities) (hneed : (needed ctx s e).Nonempty) :
    needed ctx s' e ⊂ needed ctx s e := by
  rw [needed_of_succeeds hr hist he h]
  obtain ⟨x, hx, hgiven⟩ := passGiven_nonempty hcap hkeys hadmits he hneed
  exact ⟨Set.sdiff_subset, fun hsub => (hsub hx).2 hgiven⟩

/-! ## The last pass -/

theorem passQueries_eq_nil (hneed : ∀ e ∈ entities, needed ctx s e = ∅) (index : Index UInt64) :
    passQueries o ctx entities index s = [] := by
  refine optimize_of_needless fun input hin => ?_
  obtain ⟨e, he, hin⟩ := List.mem_filterMap.1 hin
  rw [← needed_eq_of_planInput (planInput_of_toOption hin)]
  exact hneed e he

theorem needed_of_passQueries_eq_nil (hcap : 1 ≤ o.maxQueries) (hkeys : (entities.map (·.importKey)).Nodup)
    (hadmits : Admits o ctx entities index s) (hnone : passQueries o ctx entities index s = []) (he : e ∈ entities) :
    needed ctx s e = ∅ := by
  by_contra hne
  obtain ⟨x, -, hx⟩ := passGiven_nonempty hcap hkeys hadmits he (Set.nonempty_iff_ne_empty.2 hne)
  rw [passGiven, hnone] at hx
  simp [given, shares] at hx

/-! ## Many passes -/

theorem Ready.passes {n : Nat} (hr : Ready ctx entities s) (hist : History ctx)
    (h : Passes o ctx entities s n s') : Ready ctx entities s' := by
  induction h with
  | zero => exact hr
  | succ _ _ hsucceeds ih => exact ih.succeeds hist hsucceeds

theorem considered_of_passes {n : Nat} (hr : Ready ctx entities s) (hist : History ctx) (he : e ∈ entities)
    (h : Passes o ctx entities s n s') : considered ctx s' e = considered ctx s e := by
  induction h with
  | zero => rfl
  | succ hpasses _ hsucceeds ih =>
      rw [considered_of_succeeds (hr.passes hist hpasses) hist he hsucceeds, ih]

theorem ncard_needed_le {n : Nat} (hcap : 1 ≤ o.maxQueries) (hkeys : (entities.map (·.importKey)).Nodup)
    (hr : Ready ctx entities s) (hist : History ctx) (he : e ∈ entities) (h : Passes o ctx entities s n s') :
    (needed ctx s' e).ncard ≤ (needed ctx s e).ncard - n := by
  induction h with
  | zero => exact Nat.le_refl _
  | @succ n s' s'' index hpasses hadmits hsucceeds ih =>
      have hready := hr.passes hist hpasses
      rcases (needed ctx s' e).eq_empty_or_nonempty with hempty | hne
      · rw [needed_of_succeeds hready hist he hsucceeds, hempty, Set.empty_sdiff, Set.ncard_empty]
        exact Nat.zero_le _
      · have hlt := Set.ncard_lt_ncard (needed_ssubset hcap hkeys hready hist hadmits hsucceeds he hne)
          (Set.toFinite _)
        omega

/-! ## Admissible indexes -/

theorem admits_blob (o : Options) (ctx : PassContext) (entities : List Entity) (gap size : Nat) (s : Store) :
    Admits o ctx entities (.blob gap size) s :=
  ⟨Index.separate_blob gap size _, Index.values_subset_blob gap size _⟩

/-- An index whose slices hold all that entities miss is admitted, though the planner asks for part of it. -/
theorem admits_of_missing (hs : Separate (index.slices (requested o (passInputs ctx entities s))))
    (hcover : ∀ input ∈ passInputs ctx entities s,
      input.missing ⊆ values (index.slices (requested o (passInputs ctx entities s)))) :
    Admits o ctx entities index s := by
  refine ⟨hs, ?_⟩
  intro x hx
  conv at hx => rw [requested, Range.values_merge]
  obtain ⟨r, hr, hxr⟩ := hx
  obtain ⟨asker, ha, hr⟩ := List.mem_flatMap.1 hr
  obtain ⟨input, hin, ha⟩ := List.mem_filterMap.1 ha
  exact hcover input hin (values_fresh_subset ha ⟨r, hr, hxr⟩)

theorem exists_succeeds (o : Options) (ctx : PassContext) (entities : List Entity) (index : Index UInt64)
    (s : Store) (now : Timestamp) : ∃ s', Succeeds o ctx entities index s s' := by
  let groups := (passQueries o ctx entities index s).flatMap fun q =>
    q.served.map fun p => (⟨p.1.importKey, p.2, now⟩ : SuccessGroup)
  refine ⟨s.serveAll (groups.map (·.call)), groups, ?_, rfl⟩
  simp only [groups, List.flatMap_assoc, List.flatMap_map]
  exact List.Perm.refl _

end

/-- Successful historical passes converge, whatever the caps, the slices and the order of the merges: each
pass strictly shrinks what an entity needs; after as many passes as the neediest entity needs blocks no
index leads to a query any more; and a pass without queries leaves every block that is considered covered
and none of them to be retried. -/
theorem historical_passes_converge (o : Options) (hcap : 1 ≤ o.maxQueries) (ctx : PassContext) (hist : History ctx)
    (entities : List Entity) (hkeys : (entities.map (·.importKey)).Nodup) (s : Store) (hr : Ready ctx entities s) :
    ∀ n s', Passes o ctx entities s n s' →
      (∀ index, Admits o ctx entities index s' → (∃ s'', Succeeds o ctx entities index s' s'') ∧
        ∀ s'', Succeeds o ctx entities index s' s'' → ∀ e ∈ entities, (needed ctx s' e).Nonempty →
          needed ctx s'' e ⊂ needed ctx s' e) ∧
      (∀ gap size, Admits o ctx entities (.blob gap size) s') ∧
      ((∀ e ∈ entities, (needed ctx s e).ncard ≤ n) → ∀ index, passQueries o ctx entities index s' = []) ∧
      ∀ index, Admits o ctx entities index s' → passQueries o ctx entities index s' = [] →
        ∀ e ∈ entities, ∀ x ∈ considered ctx s e,
          x ∈ values (s'.covered e.importKey) ∧ x ∉ values (s'.toRetry e.importKey) := by
  intro n s' h
  have hready := hr.passes hist h
  refine ⟨fun index hadmits => ⟨exists_succeeds o ctx entities index s' Timestamp.epoch, fun s'' hs e he => ?_⟩,
    ?_, ?_, ?_⟩
  · exact needed_ssubset hcap hkeys hready hist hadmits hs he
  · exact fun gap size => admits_blob o ctx entities gap size s'
  · intro hn index
    refine passQueries_eq_nil (fun e he => ?_) index
    have hle := ncard_needed_le hcap hkeys hr hist he h
    have hmost := hn e he
    exact (Set.ncard_eq_zero (Set.toFinite _)).1 (by omega)
  · intro index hadmits hnone e he x hx
    obtain ⟨state, input, hs, hkey, hb, hin⟩ := hready e he
    have hneed := needed_of_passQueries_eq_nil hcap hkeys hadmits hnone he
    rw [← considered_of_passes hr hist he h] at hx
    rw [needed_eq hist hs, Set.eq_empty_iff_forall_notMem] at hneed
    rw [Store.covered_of_get? hs, Store.toRetry_of_get? hs]
    have hx' := hneed x
    simp only [Set.mem_ofPred_eq, not_and, not_or, not_not] at hx'
    exact hx' hx

def youngPoolStore : Store := Store.put {} (youngPool.initialState Timestamp.epoch)

/-- A historical pass at block 6. -/
def youngPoolContext : PassContext := ⟨{ mode := .historical, skip := .none }, 6, 1, 1⟩

theorem historical_passes_converge_youngPool :
    ∃ s', Passes ⟨1, 1, 1⟩ youngPoolContext [youngPool] youngPoolStore 2 s' ∧
      (∀ index, passQueries ⟨1, 1, 1⟩ youngPoolContext [youngPool] index s' = []) := by
  have hist : History youngPoolContext := ⟨rfl, rfl⟩
  have hstate : youngPoolStore.get? "pool" = some (youngPool.initialState Timestamp.epoch) := rfl
  have hin : planInput youngPoolContext none youngPool (youngPoolStore.get? "pool") =
      .ok ⟨youngPool, ⟨5, 6⟩, [], []⟩ := rfl
  have hr : Ready youngPoolContext [youngPool] youngPoolStore := by
    intro e he
    obtain rfl := List.mem_singleton.1 he
    exact ⟨_, _, hstate, rfl, ⟨_, _, rfl⟩, hstate ▸ hin⟩
  have hall := historical_passes_converge ⟨1, 1, 1⟩ (by decide) youngPoolContext hist [youngPool] (by decide)
    youngPoolStore hr
  have hnext : ∀ n s', Passes ⟨1, 1, 1⟩ youngPoolContext [youngPool] youngPoolStore n s' →
      ∃ s'', Passes ⟨1, 1, 1⟩ youngPoolContext [youngPool] youngPoolStore (n + 1) s'' := by
    intro n s' h
    have hadmits := (hall n s' h).2.1 0 1
    obtain ⟨⟨s'', hs⟩, -⟩ := (hall n s' h).1 (.blob 0 1) hadmits
    exact ⟨s'', h.succ hadmits hs⟩
  obtain ⟨s₁, h₁⟩ := hnext 0 youngPoolStore .zero
  obtain ⟨s₂, h₂⟩ := hnext 1 s₁ h₁
  refine ⟨s₂, h₂, (hall 2 s₂ h₂).2.2.1 fun e he => ?_⟩
  obtain rfl := List.mem_singleton.1 he
  have hneed := needed_eq_of_planInput (s := youngPoolStore) hin
  rw [hneed]
  exact PlanInput.ncard_needed_le _

end Backfill.Plan
