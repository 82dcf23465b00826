import Backfill.Proofs.Plan.Newest

/-!
# The slices of a grid tile the blocks

In ascending order, each sampled block begins a cell that ends just before the next one, and the last cell
ends at the tip or at its own block. Cut into pieces, the cells still follow one another, so the slices of a
historical grid run from its lowest block to its end without a gap; a recent grid keeps the last of them.
-/

namespace Backfill.Plan.BlockList

open Range (Consecutive)

variable {latest : UInt64} {numbers : List UInt64} {b : BlockList}

/-! ## Cells -/

theorem map_first_cells (latest : UInt64) (numbers : List UInt64) :
    (cells latest numbers).map Range.first = numbers := by
  induction numbers using cells.induct with
  | case1 => rfl
  | case2 last => rfl
  | case3 a b rest ih => rw [cells, List.map_cons, ih]

theorem head?_cells (latest : UInt64) (numbers : List UInt64) :
    (cells latest numbers).head?.map Range.first = numbers.head? := by
  rw [← List.head?_map, map_first_cells]

theorem consecutive_cells (h : numbers.Pairwise (· < ·)) : Consecutive (cells latest numbers) := by
  refine ⟨fun c hc => (mem_cells h c hc).1, ?_⟩
  induction numbers using cells.induct with
  | case1 => exact .nil
  | case2 last => exact List.isChain_singleton _
  | case3 a b rest ih =>
      obtain ⟨ha, h⟩ := List.pairwise_cons.1 h
      rw [cells, List.isChain_cons]
      refine ⟨fun c hc => ?_, ih h⟩
      have hfirst := head?_cells latest (b :: rest)
      rw [hc, Option.map_some, List.head?_cons, Option.some.injEq] at hfirst
      rw [hfirst, rank_sub_one (ha b List.mem_cons_self)]
      omega

/-! ## The ends of the sampled blocks -/

theorem getLast_le_of_mem {x last : UInt64} (h : numbers.Pairwise (· < ·)) (hlast : numbers.getLast? = some last)
    (hx : x ∈ numbers) : x ≤ last := by
  obtain ⟨before, rfl⟩ := List.getLast?_eq_some_iff.1 hlast
  rcases List.mem_append.1 hx with hx | hx
  · exact UInt64.le_of_lt ((List.pairwise_append.1 h).2.2 x hx last (List.mem_singleton_self last))
  · exact List.mem_singleton.1 hx ▸ UInt64.le_refl _

theorem mem_numbers_iff {b : BlockList} {k : Nat} :
    k ∈ b.samples.map (·.number.toNat) ↔ ∃ n ∈ b.sampled, n.toNat = k := by
  simp only [List.mem_map, mem_sampled]
  constructor
  · rintro ⟨s, hs, rfl⟩
    exact ⟨s.number, ⟨s, hs, rfl⟩, rfl⟩
  · rintro ⟨_, ⟨s, hs, rfl⟩, rfl⟩
    exact ⟨s, hs, rfl⟩

theorem sampled_eq_nil (h : b.samples = []) : b.sampled = [] := by
  rw [List.eq_nil_iff_forall_not_mem]
  intro n hn
  obtain ⟨s, hs, -⟩ := mem_sampled.1 hn
  rw [h] at hs
  cases hs

theorem numbers_eq_nil (h : b.sampled = []) : b.samples.map (·.number.toNat) = [] := by
  rw [List.eq_nil_iff_forall_not_mem]
  intro k hk
  obtain ⟨n, hn, -⟩ := mem_numbers_iff.1 hk
  rw [h] at hn
  cases hn

theorem head?_sampled (b : BlockList) :
    b.sampled.head?.map UInt64.toNat = (b.samples.map (·.number.toNat)).min? := by
  have hup := b.ascending_sampled
  cases hs : b.sampled with
  | nil => rw [numbers_eq_nil hs]; rfl
  | cons lowest rest =>
      rw [hs] at hup
      symm
      rw [List.head?_cons, Option.map_some, List.min?_eq_some_iff]
      refine ⟨mem_numbers_iff.2 ⟨lowest, hs ▸ List.mem_cons_self, rfl⟩, fun k hk => ?_⟩
      obtain ⟨n, hn, rfl⟩ := mem_numbers_iff.1 hk
      exact UInt64.le_iff_toNat_le.1 (head_le_of_mem hup (hs ▸ hn))

theorem getLast?_sampled (b : BlockList) :
    b.sampled.getLast?.map UInt64.toNat = (b.samples.map (·.number.toNat)).max? := by
  cases hlast : b.sampled.getLast? with
  | none => rw [numbers_eq_nil (List.getLast?_eq_none_iff.1 hlast)]; rfl
  | some highest =>
      symm
      rw [Option.map_some, List.max?_eq_some_iff]
      refine ⟨mem_numbers_iff.2 ⟨highest, List.mem_of_getLast? hlast, rfl⟩, fun k hk => ?_⟩
      obtain ⟨n, hn, rfl⟩ := mem_numbers_iff.1 hk
      exact UInt64.le_iff_toNat_le.1 (getLast_le_of_mem b.ascending_sampled hlast hn)

/-! ## Slices -/

theorem consecutive_slices (h : b.mode = .historical) : Consecutive b.slices := by
  rw [slices_of_historical h]
  exact (consecutive_cells b.ascending_sampled).splitAll _

theorem first_slices (h : b.mode = .historical) :
    b.slices.head?.map (·.first.toNat) = (b.samples.map (·.number.toNat)).min? := by
  have hvalid : ∀ c ∈ cells b.latest b.sampled, c.valid = true := (consecutive_cells b.ascending_sampled).valid
  have hhead := Range.head?_splitAll hvalid b.sliceSize
  rw [head?_cells] at hhead
  rw [slices_of_historical h, ← head?_sampled, ← hhead, Option.map_map]
  rfl

theorem last_slices (h : b.mode = .historical) :
    b.slices.getLast?.map (·.last.toNat) = (b.samples.map (·.number.toNat)).max?.map (max b.latest.toNat) := by
  have hcell := getLast?_cells b.latest b.sampled
  rw [slices_of_historical h, ← getLast?_sampled]
  cases hlast : b.sampled.getLast? with
  | none =>
      rw [List.getLast?_eq_none_iff.1 hlast]
      rfl
  | some highest =>
      rw [hlast, Option.map_some] at hcell
      have hvalid := (consecutive_cells b.ascending_sampled).valid _ (List.mem_of_getLast? hcell)
      obtain ⟨p, hp, hend, -⟩ := Range.getLast?_split hvalid b.sliceSize
      rw [Range.getLast?_splitAll hcell hvalid, hp, Option.map_some, hend]
      simp only [Option.map_some, Option.some.injEq, UInt64.le_iff_toNat_le]
      split <;> omega

theorem exists_slice_first (h : b.mode = .historical) {sample : Sample} (hs : sample ∈ b.samples) :
    ∃ s ∈ b.slices, s.first = sample.number := by
  have hmem : sample.number ∈ (cells b.latest b.sampled).map Range.first := by
    rw [map_first_cells]
    exact mem_sampled.2 ⟨sample, hs, rfl⟩
  obtain ⟨c, hc, hfirst⟩ := List.mem_map.1 hmem
  rw [slices_of_historical h, ← hfirst]
  exact Range.exists_piece_first hc (mem_cells b.ascending_sampled c hc).1 b.sliceSize

theorem ncard_slice_le (h : b.mode = .historical) {s : Range UInt64} (hs : s ∈ b.slices) :
    {x | x ∈ s}.ncard ≤ b.sliceSize := by
  rw [slices_of_historical h] at hs
  have hsize : max b.sliceSize 1 = b.sliceSize := Nat.max_eq_left (Nat.le_max_left ..)
  exact hsize ▸ Range.ncard_blocks_le (Range.mem_splitAll hs).2

theorem sliceSize_le_maxBlocks (b : BlockList) : b.sliceSize ≤ max 1 b.maxBlocks := by
  unfold sliceSize
  omega

theorem sliceSize_le_interval (b : BlockList) : b.sliceSize ≤ max 1 (b.interval / 1000000 / max 1 b.msPerBlock) := by
  have hclamp := Nat.div_le_div_right (c := max 1 b.msPerBlock) (Nat.min_le_left (b.interval / 1000000) maxWord)
  unfold sliceSize
  omega

/-- Without samples a grid has no slices. In historical mode its slices are valid, each begins at the block after
the one before ends, the first begins at the lowest sampled block and the last ends at the tip or at the highest
sampled block, whichever is later; none holds more blocks than a query may or than one interval lasts (a limit of 0
and a block time of 0 count as 1), and every sampled block begins a slice. In recent mode the last of these slices
is all there is. -/
theorem slices_tile (b : BlockList) :
    (b.samples = [] → b.slices = []) ∧
    (b.mode = .historical →
      (∀ s ∈ b.slices, s.valid = true ∧ {x | x ∈ s}.ncard ≤ max 1 b.maxBlocks ∧
        {x | x ∈ s}.ncard ≤ max 1 (b.interval / 1000000 / max 1 b.msPerBlock)) ∧
      (b.slices.IsChain fun r s => s.first.toNat = r.last.toNat + 1) ∧
      b.slices.head?.map (·.first.toNat) = (b.samples.map (·.number.toNat)).min? ∧
      b.slices.getLast?.map (·.last.toNat) = (b.samples.map (·.number.toNat)).max?.map (max b.latest.toNat) ∧
      ∀ sample ∈ b.samples, ∃ s ∈ b.slices, s.first = sample.number) ∧
    (b.mode = .recent → b.slices = { b with mode := .historical }.slices.getLast?.toList) := by
  refine ⟨fun hnone => ?_, fun h => ⟨fun s hs => ?_, ?_, first_slices h, last_slices h, fun _ hs =>
    exists_slice_first h hs⟩, fun h => ?_⟩
  · have hsampled := sampled_eq_nil hnone
    cases h : b.mode with
    | historical => rw [slices_of_historical h, hsampled]; rfl
    | recent => rw [slices_of_recent h, hsampled]; rfl
  · have hsize := ncard_slice_le h hs
    exact ⟨(consecutive_slices h).valid s hs, hsize.trans b.sliceSize_le_maxBlocks, hsize.trans b.sliceSize_le_interval⟩
  · apply (consecutive_slices h).chain.imp
    intro r s hrs
    rw [rank_word, rank_word] at hrs
    omega
  · rw [slices_of_recent h]
    rfl

/-- Samples in any order and a tip below the highest of them: that block has a slice of its own. -/
example : (BlockList.mk [⟨9, default⟩, ⟨2, default⟩, ⟨9, default⟩, ⟨5, default⟩] 7 2000000 1 10 .historical).slices =
    [⟨2, 3⟩, ⟨4, 4⟩, ⟨5, 6⟩, ⟨7, 8⟩, ⟨9, 9⟩] := by cbv

end Backfill.Plan.BlockList
