import Backfill.Proofs.Plan.Recent

/-!
# Historical and recent passes divide the chain

A historical pass that leaves the newest blocks to recent passes ends just before their window. There is no block
before the first one, so on a chain that is no longer than the window and the wait it ends in the window's own
first block instead: both then consider block 0. Besides that one they never share a block, and between them they
leave out none from the contract's creation to the newest settled block.
-/

namespace Backfill.Plan

variable {ctx : PassContext} {last : Option UInt64} {e : Entity} {s : ImportState} {created x : UInt64}
  {input : PlanInput Entity UInt64}

/-- A historical pass that leaves the newest blocks of a product to recent passes. -/
structure LeavesWindow (ctx : PassContext) (e : Entity) (s : ImportState) (created : UInt64) : Prop where
  mode : ctx.behaviour.mode = .historical
  force : ctx.behaviour.force = none
  skip : ctx.behaviour.skip.appliesTo e.live = true
  created : s.createdAt? = some created

/-- The newest window and the wait reach back to the first block of the chain. -/
def ReachesStart (ctx : PassContext) (last : Option UInt64) : Prop :=
  ctx.latest.toNat ≤ windowLength ctx last + ctx.behaviour.wait.toNat

instance : Decidable (ReachesStart ctx last) := inferInstanceAs (Decidable (_ ≤ _))

/-- The block before the newest window, or block 0 where there is none before it. -/
def blockBefore (ctx : PassContext) (last : Option UInt64) : Nat :=
  ctx.latest.toNat - windowLength ctx last - ctx.behaviour.wait.toNat - 1

/-! ## Where the two meet -/

theorem toNat_first_recentWindow (ctx : PassContext) (last : Option UInt64) : (recentWindow ctx last).first.toNat =
    ctx.latest.toNat - windowLength ctx last - ctx.behaviour.wait.toNat := by
  have hlatest := ctx.latest.toNat_lt
  rw [recentWindow, toNat_clampWord, maxWord]
  omega

theorem LeavesWindow.toNat_historicalEnd (h : LeavesWindow ctx e s created) (last : Option UInt64) :
    (historicalEnd ctx (recentWindow ctx last) e.live).toNat = blockBefore ctx last := by
  have hlatest := ctx.latest.toNat_lt
  rw [historicalEnd, if_pos h.skip, toNat_clampWord, toNat_first_recentWindow, blockBefore, PassContext.settled, maxWord]
  omega

theorem LeavesWindow.rawRange_eq (h : LeavesWindow ctx e s created) : rawRange ctx last e (some s) =
    .ok ⟨created, historicalEnd ctx (recentWindow ctx last) e.live⟩ := by
  obtain ⟨data, hdata, hcreated⟩ := Option.map_eq_some_iff.1 h.created
  simp only [rawRange, h.mode, hdata, hcreated]

/-! ## The range of a historical pass -/

theorem repaired_eq_ok {strict : Bool} {key : String} {raw full : Range UInt64}
    (h : repaired strict key raw = .ok full) :
    raw.valid = true ∧ full = raw ∨ raw.valid = false ∧ full = Range.point raw.last := by
  rw [repaired] at h
  split at h
  · rename_i hv
    cases h
    exact Or.inl ⟨hv, rfl⟩
  · rename_i hv
    split at h
    · cases h
    · cases h
      exact Or.inr ⟨Bool.eq_false_iff.2 hv, rfl⟩

/-- A contract made after that block leaves a range of one block. -/
theorem LeavesWindow.mem_full_iff (h : LeavesWindow ctx e s created)
    (hin : planInput ctx last e (some s) = .ok input) : x ∈ input.full ↔ x.toNat ≤ blockBefore ctx last ∧
      (created.toNat ≤ x.toNat ∨ x.toNat = blockBefore ctx last ∧ blockBefore ctx last < created.toNat) := by
  obtain ⟨raw, full, hraw, hfull, rfl⟩ := planInput_eq_ok hin
  rw [h.rawRange_eq, Except.ok.injEq] at hraw
  subst hraw
  have hstop := h.toNat_historicalEnd last
  rw [h.force]
  change x ∈ full ↔ _
  rcases repaired_eq_ok hfull with ⟨hvalid, rfl⟩ | ⟨hinverted, rfl⟩
  · simp only [Range.valid_iff_rank, rank_word, hstop] at hvalid
    simp only [Range.mem_iff_rank, rank_word, hstop]
    omega
  · simp only [← Bool.not_eq_true, Range.valid_iff_rank, rank_word, hstop] at hinverted
    simp only [Range.mem_iff_rank, Range.point, rank_word, hstop]
    omega

/-- A historical pass that leaves the newest blocks to recent passes shares no block with their window, except for
block 0 when the window begins with it, and the two together hold every block from the contract's creation to the
newest settled one. Unless it is strict the pass always has a range to consider. -/
theorem passes_share_first_block_iff (h : LeavesWindow ctx e s created) (last : Option UInt64) :
    (ctx.behaviour.strict = false → ∃ input, planInput ctx last e (some s) = .ok input) ∧
    ∀ input, planInput ctx last e (some s) = .ok input →
      (∀ x, x ∈ input.full ∧ x ∈ recentWindow ctx last ↔ x = 0 ∧ ReachesStart ctx last) ∧
      ∀ x, created ≤ x → x.toNat ≤ ctx.settled → x ∈ input.full ∨ x ∈ recentWindow ctx last := by
  refine ⟨fun hstrict => exists_planInput_of_raw hstrict h.rawRange_eq, fun input hin => ⟨fun x => ?_, ?_⟩⟩
  · have hzero : x = 0 ↔ x.toNat = 0 := UInt64.toNat_inj.symm
    rw [h.mem_full_iff hin, mem_recentWindow, hzero, ReachesStart, PassContext.settled, blockBefore]
    omega
  · intro x hcreated hsettled
    rw [UInt64.le_iff_toNat_le] at hcreated
    rw [h.mem_full_iff hin, mem_recentWindow, blockBefore]
    omega

/-- A hundred blocks, of which the newest five are not settled and the ten before them are left to recent passes. -/
def grownChain : PassContext := ⟨{ mode := .historical, wait := 5 }, 100, 10, 3000⟩

/-- What is known of a contract before its first pass. -/
def youngState : ImportState := youngPool.initialState Timestamp.epoch

theorem passes_share_first_block_iff_grownChain :
    LeavesWindow grownChain youngPool youngState 5 ∧
    ∃ input, planInput grownChain none youngPool (some youngState) = .ok input ∧
      (∀ x, ¬ (x ∈ input.full ∧ x ∈ recentWindow grownChain none)) ∧
      ∀ x, 5 ≤ x → x.toNat ≤ 95 → x ∈ input.full ∨ x ∈ recentWindow grownChain none := by
  have hleaves : LeavesWindow grownChain youngPool youngState 5 := ⟨rfl, rfl, rfl, rfl⟩
  obtain ⟨hok, hall⟩ := passes_share_first_block_iff hleaves none
  obtain ⟨input, hin⟩ := hok rfl
  obtain ⟨hshared, hheld⟩ := hall input hin
  have hstart : ¬ ReachesStart grownChain none := by decide
  exact ⟨hleaves, input, hin, fun x hx => hstart ((hshared x).1 hx).2, hheld⟩

/-- A chain of six blocks, all of them in the newest window. -/
def youngChain : PassContext := ⟨{ mode := .historical }, 5, 10000, 3000⟩

/-- A contract made in the first block of its chain. -/
def firstPool : Entity where
  importKey := "pool"
  address := "0xpool"
  live := true
  data := .product .investment ⟨"pool", "chain", "0xpool", 0, Timestamp.epoch, Coverage.empty Timestamp.epoch⟩

theorem young_chain_shares_first_block :
    LeavesWindow youngChain firstPool (firstPool.initialState Timestamp.epoch) 0 ∧
    youngChain.behaviour.strict = false ∧
    ∃ input, planInput youngChain none firstPool (some (firstPool.initialState Timestamp.epoch)) = .ok input ∧
      (0 : UInt64) ∈ input.full ∧ (0 : UInt64) ∈ recentWindow youngChain none :=
  ⟨⟨rfl, rfl, rfl, rfl⟩, rfl, ⟨firstPool, ⟨0, 0⟩, [], []⟩, rfl, by decide, by decide⟩

end Backfill.Plan
