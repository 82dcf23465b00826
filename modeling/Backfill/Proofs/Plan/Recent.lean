import Backfill.Proofs.Plan.Bounds

/-!
# What a recent pass considers

A recent pass considers the newest window, whatever the state. Once a last import is known that is not beyond the
tip, the blocks that lie more than the wait below it drop out of the window.
-/

namespace Backfill.Plan

variable {ctx : PassContext} {last : Option UInt64} {x : UInt64}

theorem mem_recentWindow : x ∈ recentWindow ctx last ↔
    ctx.latest.toNat - windowLength ctx last - ctx.behaviour.wait.toNat ≤ x.toNat ∧ x.toNat ≤ ctx.settled := by
  have hlatest := ctx.latest.toNat_lt
  rw [Range.mem_iff_rank]
  simp only [rank_word, recentWindow, ctx.toNat_clampWord_settled, toNat_clampWord, maxWord]
  omega

theorem valid_recentWindow : (recentWindow ctx last).valid = true := by
  refine Range.valid_of_mem (x := clampWord ctx.settled) (mem_recentWindow.2 ?_)
  rw [ctx.toNat_clampWord_settled, PassContext.settled]
  omega

/-- The last import shortens the window and nothing else. -/
theorem mem_recentWindow_iff (h : ∀ block ∈ last, block.toNat ≤ ctx.latest.toNat) :
    x ∈ recentWindow ctx last ↔
      x ∈ recentWindow ctx none ∧ ∀ block ∈ last, block.toNat ≤ x.toNat + ctx.behaviour.wait.toNat := by
  cases last with
  | none => simp
  | some block =>
      have hblock : block.toNat ≤ ctx.latest.toNat := h block rfl
      simp only [mem_recentWindow, windowLength, Option.elim_some, Option.elim_none, Option.mem_some_iff,
        forall_eq']
      omega

/-- No state is an error for a recent pass. -/
theorem planInput_recent (h : ctx.behaviour.mode = .recent) (e : Entity) (state : Option ImportState) :
    planInput ctx last e state = .ok (forced ctx.behaviour.force
      ⟨e, recentWindow ctx last, (known ctx.behaviour state).1, (known ctx.behaviour state).2⟩) := by
  have hraw : rawRange ctx last e state = .ok (recentWindow ctx last) := by
    simp only [rawRange, h]
  exact planInput_of_ok hraw (by rw [repaired, if_pos valid_recentWindow])

theorem mem_full_forced_iff {force : Option (Range UInt64)} {a b : PlanInput Entity UInt64} {P : Prop}
    (h : x ∈ a.full ↔ x ∈ b.full ∧ P) : x ∈ (forced force a).full ↔ x ∈ (forced force b).full ∧ P := by
  cases force with
  | none => exact h
  | some bounds =>
      rw [mem_full_forced, mem_full_forced, h]
      tauto

end Backfill.Plan
