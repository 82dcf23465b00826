import Backfill.Proofs.Assignment
import Backfill.Proofs.Plan.Scans

/-!
# Where a pass scans

The range that a pass considers for an entity ends at the newest settled block or before it, and lies inside
forced bounds. A query begins and ends with blocks that some entity needs, so it keeps to the same bounds, be
it the hull of what several entities miss or a piece of what failed before.
-/

namespace Backfill

/-- A range holds everything between two values that it holds. -/
theorem Query.Spans.inside {ε α : Type} [Axis α] {inputs : List (PlanInput ε α)} {n : Nat} {q : Query ε α}
    (h : q.Spans inputs n) {bounds : Range α} (hin : ∀ input ∈ inputs, ∀ x ∈ input.full, x ∈ bounds) :
    ∀ x ∈ q.range, x ∈ bounds := by
  obtain ⟨i, hi, hfirst, -⟩ := h.first
  obtain ⟨j, hj, hlast, -⟩ := h.last
  have hbegin := hin i hi _ hfirst
  have hend := hin j hj _ hlast
  intro x hx
  rw [Range.mem_iff_rank] at hbegin hend hx ⊢
  omega

namespace Plan

variable {ctx : PassContext} {last : Option UInt64} {e : Entity} {state : Option ImportState}

/-! ## Settled blocks -/

/-- The blocks far enough from the tip. -/
def PassContext.settledBlocks (ctx : PassContext) : Range UInt64 := ⟨0, clampWord ctx.settled⟩

theorem PassContext.toNat_clampWord_settled (ctx : PassContext) : (clampWord ctx.settled).toNat = ctx.settled := by
  have := ctx.latest.toNat_lt
  rw [toNat_clampWord, PassContext.settled, maxWord]
  omega

theorem PassContext.mem_settledBlocks {x : UInt64} : x ∈ ctx.settledBlocks ↔ x.toNat ≤ ctx.settled := by
  rw [Range.mem_iff_rank, rank_word, rank_word, rank_word]
  change ((0 : Nat) : Int) ≤ x.toNat ∧ (x.toNat : Int) ≤ (clampWord ctx.settled).toNat ↔ _
  rw [ctx.toNat_clampWord_settled]
  omega

theorem toNat_historicalEnd_le (window : Range UInt64) (live : Bool) :
    (historicalEnd ctx window live).toNat ≤ ctx.settled := by
  rw [historicalEnd]
  split
  · rw [toNat_clampWord]
    omega
  · exact ctx.toNat_clampWord_settled.le

theorem last_le_of_rawRange {raw : Range UInt64} (h : rawRange ctx last e state = .ok raw) :
    raw.last.toNat ≤ ctx.settled := by
  simp only [rawRange] at h
  split at h
  · split at h
    · cases h
      exact toNat_historicalEnd_le _ _
    · cases h
  · cases h
    exact ctx.toNat_clampWord_settled.le

theorem last_of_repaired {strict : Bool} {key : String} {raw full : Range UInt64}
    (h : repaired strict key raw = .ok full) : full.last = raw.last := by
  rw [repaired] at h
  split at h
  · cases h
    rfl
  · split at h
    · cases h
    · cases h
      rfl

/-! ## Ranges to consider -/

theorem mem_full_forced {bounds : Range UInt64} {input : PlanInput Entity UInt64} {x : UInt64} :
    x ∈ (forced (some bounds) input).full ↔ x ∈ input.full ∧ x ∈ bounds := by
  simp only [forced, Range.mem_iff_rank, Axis.rank_later, Axis.rank_earlier]
  omega

theorem mem_full_of_mem_forced {force : Option (Range UInt64)} {input : PlanInput Entity UInt64} {x : UInt64}
    (hx : x ∈ (forced force input).full) : x ∈ input.full := by
  cases force with
  | none => exact hx
  | some bounds => exact (mem_full_forced.1 hx).1

theorem settled_of_mem_full {input : PlanInput Entity UInt64} (h : planInput ctx last e state = .ok input) :
    ∀ x ∈ input.full, x ∈ ctx.settledBlocks := by
  obtain ⟨raw, full, hraw, hfull, rfl⟩ := planInput_eq_ok h
  intro x hx
  have hend : full.last.toNat ≤ ctx.settled := by
    rw [last_of_repaired hfull]
    exact last_le_of_rawRange hraw
  have hle : (x.toNat : Int) ≤ full.last.toNat := (Range.mem_iff_rank.1 (mem_full_of_mem_forced hx)).2
  exact PassContext.mem_settledBlocks.2 (by omega)

theorem forced_of_mem_full {input : PlanInput Entity UInt64} (h : planInput ctx last e state = .ok input)
    {bounds : Range UInt64} (hforce : ctx.behaviour.force = some bounds) : ∀ x ∈ input.full, x ∈ bounds := by
  obtain ⟨raw, full, -, -, rfl⟩ := planInput_eq_ok h
  rw [hforce]
  exact fun x hx => (mem_full_forced.1 hx).2

/-! ## Queries -/

/-- The inputs are those of a pass, whatever the entities, their states and their last imports. -/
def OfPass (ctx : PassContext) (inputs : List (PlanInput Entity UInt64)) : Prop :=
  ∀ input ∈ inputs, ∃ last e state, planInput ctx last e state = .ok input

theorem ofPass_filterMap (ctx : PassContext) (entities : List Entity) (last : Entity → Option UInt64)
    (state : Entity → Option ImportState) :
    OfPass ctx (entities.filterMap fun e => (planInput ctx (last e) e (state e)).toOption) := by
  intro input hin
  obtain ⟨e, -, he⟩ := List.mem_filterMap.1 hin
  exact ⟨last e, e, state e, planInput_of_toOption he⟩

variable {o : Options} {index : Index UInt64} {inputs : List (PlanInput Entity UInt64)} {q : Query Entity UInt64}

theorem OfPass.settled (h : OfPass ctx inputs) (hq : q ∈ (optimize o index inputs).queries) :
    ∀ x ∈ q.range, x ∈ ctx.settledBlocks := by
  refine (spans_of_mem_optimize hq).inside fun input hin => ?_
  obtain ⟨last, e, state, hinput⟩ := h input hin
  exact settled_of_mem_full hinput

theorem OfPass.forced (h : OfPass ctx inputs) (hq : q ∈ (optimize o index inputs).queries) {bounds : Range UInt64}
    (hforce : ctx.behaviour.force = some bounds) : ∀ x ∈ q.range, x ∈ bounds := by
  refine (spans_of_mem_optimize hq).inside fun input hin => ?_
  obtain ⟨last, e, state, hinput⟩ := h input hin
  exact forced_of_mem_full hinput hforce

/-- No pass scans a block that a reorganisation may still replace, nor one outside forced bounds. -/
theorem pass_scans_settled_forced (ctx : PassContext) (entities : List Entity) (last : Entity → Option UInt64)
    (state : Entity → Option ImportState) (o : Options) (index : Index UInt64) :
    ∀ q ∈ (optimize o index (entities.filterMap fun e => (planInput ctx (last e) e (state e)).toOption)).queries,
      ∀ x ∈ q.range, x.toNat ≤ ctx.latest.toNat - ctx.behaviour.wait.toNat ∧
        ∀ bounds, ctx.behaviour.force = some bounds → x ∈ bounds := by
  intro q hq x hx
  have hpass := ofPass_filterMap ctx entities last state
  exact ⟨PassContext.mem_settledBlocks.1 (hpass.settled hq x hx), fun bounds hforce => hpass.forced hq hforce x hx⟩

/-- A contract made at block 5, with block 8 as the newest one, two blocks unsettled and block 5 out of bounds. -/
theorem pass_scans_settled_forced_youngPool :
    ∃ q ∈ (optimize ⟨1, 4, 2⟩ (.fixed [⟨0, 9⟩]) ([youngPool].filterMap fun e => (planInput
        ⟨{ mode := .historical, wait := 2, force := some ⟨6, 9⟩, skip := .none }, 8, 4, 12000⟩ none e
        (some (e.initialState Timestamp.epoch))).toOption)).queries,
      q.range = ⟨6, 6⟩ ∧ (6 : UInt64).toNat ≤ 8 - 2 ∧ (6 : UInt64) ∈ (⟨6, 9⟩ : Range UInt64) := by
  have hranges : (optimize ⟨1, 4, 2⟩ (.fixed [⟨0, 9⟩]) ([youngPool].filterMap fun e => (planInput
      ⟨{ mode := .historical, wait := 2, force := some ⟨6, 9⟩, skip := .none }, 8, 4, 12000⟩ none e
      (some (e.initialState Timestamp.epoch))).toOption)).queries.map (·.range) = [⟨6, 6⟩] := by decide +kernel
  obtain ⟨q, hq, hrange⟩ := List.mem_map.1 (hranges ▸ List.mem_singleton_self _)
  obtain ⟨hsettled, hforced⟩ := pass_scans_settled_forced _ _ (fun _ => none) _ _ _ q hq 6 (by
    rw [hrange]
    exact Range.contains_iff_mem.1 (by decide))
  exact ⟨q, hq, hrange, hsettled, hforced _ rfl⟩

end Plan

namespace Assignment

variable {a : Assignment} {config : Plan.BatchConfig} {now : Timestamp} {latest : UInt64}
  {lastImported : Keyed UInt64} {store : Store}

theorem settled_of_mem_plan {batch : List (Query Entity UInt64)}
    (hb : batch ∈ (a.plan config now latest lastImported store).1.batches) {q : Query Entity UInt64} (hq : q ∈ batch) :
    ∀ x ∈ q.range, x ∈ (a.passContext latest).settledBlocks :=
  (Plan.ofPass_filterMap _ _ _ _).settled (Plan.mem_of_mem_batches hb hq)

end Assignment

end Backfill
