import Backfill.Plan.Window
import Backfill.Proofs.Plan.Missing
import Backfill.Proofs.Store

/-!
# What a historical pass considers

The range that a historical pass considers for an entity follows from the tip, the settings and the block
of its contract's creation; what the state holds as covered or failed only decides what of it is needed.
-/

namespace Backfill.Plan

open Range (values)

variable {ctx : PassContext} {last : Option UInt64} {e : Entity} {state : Option ImportState}

theorem planInput_eq_ok {input : PlanInput Entity UInt64} (h : planInput ctx last e state = .ok input) :
    ∃ raw full, rawRange ctx last e state = .ok raw ∧
      repaired ctx.behaviour.strict e.importKey raw = .ok full ∧
      input = forced ctx.behaviour.force
        ⟨e, full, (known ctx.behaviour state).1, (known ctx.behaviour state).2⟩ := by
  cases hraw : rawRange ctx last e state with
  | error cause => simp [planInput, hraw, bind, Except.bind] at h
  | ok raw =>
      cases hfull : repaired ctx.behaviour.strict e.importKey raw with
      | error cause => simp [planInput, hraw, hfull, bind, Except.bind] at h
      | ok full =>
          simp only [planInput, hraw, hfull, bind, Except.bind, pure, Except.pure, Except.ok.injEq] at h
          exact ⟨raw, full, rfl, hfull, h.symm⟩

theorem planInput_of_ok {raw full : Range UInt64} (hraw : rawRange ctx last e state = .ok raw)
    (hfull : repaired ctx.behaviour.strict e.importKey raw = .ok full) :
    planInput ctx last e state = .ok (forced ctx.behaviour.force
      ⟨e, full, (known ctx.behaviour state).1, (known ctx.behaviour state).2⟩) := by
  simp only [planInput, hraw, hfull, bind, Except.bind, pure, Except.pure]

/-- Where inverted ranges are repaired, every range will do. -/
theorem exists_planInput_of_raw (hstrict : ctx.behaviour.strict = false) {raw : Range UInt64}
    (hraw : rawRange ctx last e state = .ok raw) : ∃ input, planInput ctx last e state = .ok input := by
  have hfull : ∃ full, repaired ctx.behaviour.strict e.importKey raw = .ok full := by
    rw [repaired, hstrict]
    split
    · exact ⟨_, rfl⟩
    · exact ⟨_, rfl⟩
  obtain ⟨full, hfull⟩ := hfull
  exact ⟨_, planInput_of_ok hraw hfull⟩

theorem planInput_of_toOption {input : PlanInput Entity UInt64}
    (h : (planInput ctx last e state).toOption = some input) : planInput ctx last e state = .ok input := by
  cases hp : planInput ctx last e state with
  | error cause => simp [hp, Except.toOption] at h
  | ok other =>
      rw [hp, Except.toOption, Option.some.injEq] at h
      rw [h]

theorem entity_of_planInput {input : PlanInput Entity UInt64} (h : planInput ctx last e state = .ok input) :
    input.entity = e := by
  obtain ⟨raw, full, -, -, rfl⟩ := planInput_eq_ok h
  cases hf : ctx.behaviour.force <;> rfl

/-! ## Forced bounds -/

theorem full_forced (bounds : Option (Range UInt64)) {a b : PlanInput Entity UInt64} (h : a.full = b.full) :
    (forced bounds a).full = (forced bounds b).full := by
  cases bounds with
  | none => exact h
  | some bounds => simp only [forced, h]

theorem covered_forced (bounds : Option (Range UInt64)) (input : PlanInput Entity UInt64) :
    (forced bounds input).covered = input.covered := by
  cases bounds <;> rfl

theorem mem_toRetry_forced (bounds : Option (Range UInt64)) {input : PlanInput Entity UInt64} {x : UInt64}
    (hx : x ∈ (forced bounds input).full) :
    x ∈ values (forced bounds input).toRetry ↔ x ∈ values input.toRetry := by
  cases bounds with
  | none => exact Iff.rfl
  | some bounds => exact Range.mem_values_clip.trans (and_iff_left hx)

/-! ## Historical passes -/

/-- What a historical pass that minds the states considers for an entity. -/
structure History (ctx : PassContext) : Prop where
  mode : ctx.behaviour.mode = .historical
  mindful : ctx.behaviour.ignoreState = false

theorem History.known (h : History ctx) (s : ImportState) : known ctx.behaviour (some s) = (s.covered, s.toRetry) := by
  cases hc : StoredAxis.coverage? (α := UInt64) s.data with
  | none => simp [Plan.known, ImportState.covered, ImportState.toRetry, hc]
  | some c => simp [Plan.known, ImportState.covered, ImportState.toRetry, hc, h.mode, h.mindful]

theorem History.covered (h : History ctx) {s : ImportState} {input : PlanInput Entity UInt64}
    (hin : planInput ctx last e (some s) = .ok input) : input.covered = s.covered := by
  obtain ⟨raw, full, -, -, rfl⟩ := planInput_eq_ok hin
  rw [covered_forced, h.known]

theorem History.mem_toRetry (h : History ctx) {s : ImportState} {input : PlanInput Entity UInt64}
    (hin : planInput ctx last e (some s) = .ok input) {x : UInt64} (hx : x ∈ input.full) :
    x ∈ values input.toRetry ↔ x ∈ values s.toRetry := by
  obtain ⟨raw, full, -, -, rfl⟩ := planInput_eq_ok hin
  rw [mem_toRetry_forced _ hx, h.known]

theorem History.rawRange_congr (h : History ctx) {s s' : ImportState} (hkind : s'.createdAt? = s.createdAt?) :
    rawRange ctx last e (some s') = rawRange ctx last e (some s) := by
  simp only [rawRange, h.mode]
  unfold ImportState.createdAt? at hkind
  cases hs : s.data.product? with
  | none =>
      rw [hs, Option.map_none, Option.map_eq_none_iff] at hkind
      rw [hkind]
  | some data =>
      rw [hs, Option.map_some, Option.map_eq_some_iff] at hkind
      obtain ⟨data', hs', hcreated⟩ := hkind
      simp only [hs', hcreated]

/-- Coverage has no part in the range that is considered. -/
theorem History.full_congr (h : History ctx) {s s' : ImportState} (hkind : s'.createdAt? = s.createdAt?)
    {input : PlanInput Entity UInt64} (hin : planInput ctx last e (some s) = .ok input) :
    ∃ input', planInput ctx last e (some s') = .ok input' ∧ input'.full = input.full := by
  obtain ⟨raw, full, hraw, hfull, rfl⟩ := planInput_eq_ok hin
  rw [← h.rawRange_congr hkind] at hraw
  exact ⟨_, planInput_of_ok hraw hfull, full_forced _ rfl⟩

/-- A contract made at block 5 of which nothing is imported yet. -/
def youngPool : Entity where
  importKey := "pool"
  address := "0x01"
  live := true
  data := .product .investment ⟨"pool", "chain", "0x01", 5, Timestamp.epoch, Coverage.empty Timestamp.epoch⟩

end Backfill.Plan
