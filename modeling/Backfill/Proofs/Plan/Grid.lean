import Backfill.Assignment
import Backfill.Proofs.Plan.Missing
import Backfill.Proofs.Plan.Retries
import Backfill.Proofs.Plan.Slices
import Backfill.Proofs.Plan.Ticks
import Backfill.Proofs.Plan.Window
import Mathlib

/-!
# The slices of a pass reach everything that is missing

The cells of a grid follow one another without a gap, from its lowest sampled block up to the newest block.
A grid that was estimated for a pass holds the first block that any entity considers, so in historical mode
its cells hold every block up to the tip; blobs hold whatever they are made for. Either way the slices are
valid and never overlap. There is no grid where its ticks would have to go past the end of the calendar.
-/

namespace Backfill

open Range (Below Separate values)

namespace Plan.BlockList

variable {latest x : UInt64} {numbers : List UInt64}

/-! ## Ascending numbers -/

theorem mem_dedup : x ∈ dedup numbers ↔ x ∈ numbers := by
  induction numbers using dedup.induct with
  | case1 b rest ih =>
      rw [dedup, if_pos rfl, ih]
      simp
  | case2 a b rest hne ih => rw [dedup, if_neg hne, List.mem_cons, ih, ← List.mem_cons]
  | case3 short hshort => rw [dedup.eq_2 short hshort]

theorem ascending_dedup (h : numbers.Pairwise (· ≤ ·)) : (dedup numbers).Pairwise (· < ·) := by
  induction numbers using dedup.induct with
  | case1 b rest ih =>
      rw [dedup, if_pos rfl]
      exact ih (List.pairwise_cons.1 h).2
  | case2 a b rest hne ih =>
      obtain ⟨ha, h⟩ := List.pairwise_cons.1 h
      rw [dedup, if_neg hne, List.pairwise_cons]
      refine ⟨?_, ih h⟩
      intro y hy
      have hab : a < b := UInt64.lt_of_le_of_ne (ha b List.mem_cons_self) hne
      rcases List.mem_cons.1 (mem_dedup.1 hy) with rfl | hy
      · exact hab
      · exact UInt64.lt_of_lt_of_le hab ((List.pairwise_cons.1 h).1 y hy)
  | case3 short hshort =>
      match short, hshort with
      | [], _ => exact .nil
      | [a], _ => exact List.pairwise_singleton _ a
      | a :: b :: rest, hshort => exact absurd rfl (hshort a b rest)

theorem head_le_of_mem {b : UInt64} (h : (b :: numbers).Pairwise (· < ·)) (hx : x ∈ b :: numbers) : b ≤ x := by
  rcases List.mem_cons.1 hx with rfl | hx
  · exact UInt64.le_refl _
  · exact UInt64.le_of_lt ((List.pairwise_cons.1 h).1 x hx)

/-! ## Cells -/

theorem rank_sub_one {a b : UInt64} (h : a < b) : Axis.rank (b - 1) = Axis.rank b - 1 := by
  have hlt := UInt64.lt_iff_toNat_lt.1 h
  have hone : (1 : UInt64) ≤ b := UInt64.le_iff_toNat_le.2 (by rw [UInt64.toNat_one]; omega)
  simp only [rank_word, UInt64.toNat_sub_of_le b 1 hone, UInt64.toNat_one]
  omega

theorem mem_cells (h : numbers.Pairwise (· < ·)) :
    ∀ c ∈ cells latest numbers, c.valid = true ∧ c.first ∈ numbers := by
  induction numbers using cells.induct with
  | case1 => simp [cells]
  | case2 last =>
      rw [cells, List.forall_mem_singleton, Range.valid_iff_rank]
      refine ⟨?_, List.mem_singleton_self _⟩
      split
      · rename_i hle
        exact (Axis.le_iff_rank _ _).1 hle
      · exact Int.le_refl _
  | case3 a b rest ih =>
      obtain ⟨ha, h⟩ := List.pairwise_cons.1 h
      have hab := ha b List.mem_cons_self
      rw [cells, List.forall_mem_cons, Range.valid_iff_rank, rank_sub_one hab]
      refine ⟨⟨?_, List.mem_cons_self⟩, ?_⟩
      · have hlt : (a.toNat : Int) < b.toNat := by exact_mod_cast UInt64.lt_iff_toNat_lt.1 hab
        simp only [rank_word]
        omega
      · intro c hc
        obtain ⟨hvalid, hmem⟩ := ih h c hc
        exact ⟨hvalid, List.mem_cons_of_mem _ hmem⟩

theorem below_cells (h : numbers.Pairwise (· < ·)) : (cells latest numbers).Pairwise Below := by
  induction numbers using cells.induct with
  | case1 => exact .nil
  | case2 last => exact List.pairwise_singleton _ _
  | case3 a b rest ih =>
      obtain ⟨ha, h⟩ := List.pairwise_cons.1 h
      rw [cells, List.pairwise_cons]
      refine ⟨?_, ih h⟩
      intro c hc
      have hrank : Axis.rank b ≤ Axis.rank c.first :=
        (Axis.le_iff_rank _ _).1 (head_le_of_mem h (mem_cells h c hc).2)
      simp only [Below, rank_sub_one (ha b List.mem_cons_self)]
      omega

/-- From any of the numbers up to the newest block nothing is left out. -/
theorem mem_values_cells (h : numbers.Pairwise (· < ·)) {n : UInt64} (hn : n ∈ numbers) (hnx : n ≤ x)
    (hx : x ≤ latest) : x ∈ values (cells latest numbers) := by
  induction numbers using cells.induct generalizing n with
  | case1 => cases hn
  | case2 last =>
      obtain rfl := List.mem_singleton.1 hn
      rw [cells, Range.mem_values_singleton, Range.mem_iff]
      refine ⟨hnx, ?_⟩
      rw [if_pos (UInt64.le_trans hnx hx)]
      exact hx
  | case3 a b rest ih =>
      obtain ⟨ha, h⟩ := List.pairwise_cons.1 h
      rw [cells, Range.mem_values_cons]
      rcases UInt64.lt_or_le x b with hlt | hle
      · left
        -- only the first number is below the second one
        have han : a = n := by
          rcases List.mem_cons.1 hn with heq | hlater
          · exact heq.symm
          · exact absurd hlt (UInt64.not_lt.2 (UInt64.le_trans (head_le_of_mem h hlater) hnx))
        have hax : a ≤ x := han ▸ hnx
        rw [Range.mem_iff_rank, rank_sub_one (ha b List.mem_cons_self)]
        have hlt' : (x.toNat : Int) < b.toNat := by exact_mod_cast UInt64.lt_iff_toNat_lt.1 hlt
        have hax' : (a.toNat : Int) ≤ x.toNat := by exact_mod_cast UInt64.le_iff_toNat_le.1 hax
        simp only [rank_word]
        omega
      · exact Or.inr (ih h List.mem_cons_self hle)

/-! ## Slices -/

/-- The sampled blocks in ascending order, each of them once. -/
def sampled (b : BlockList) : List UInt64 := dedup ((b.samples.map (·.number)).mergeSort fun x y => decide (x ≤ y))

theorem ascending_sampled (b : BlockList) : b.sampled.Pairwise (· < ·) := by
  apply ascending_dedup
  exact ascending_mergeSort (fun _ _ _ => UInt64.le_trans) UInt64.le_total id _

theorem mem_sampled {b : BlockList} : x ∈ b.sampled ↔ ∃ s ∈ b.samples, s.number = x := by
  rw [sampled, mem_dedup, List.mem_mergeSort, List.mem_map]

variable {b : BlockList}

theorem slices_of_historical (h : b.mode = .historical) :
    b.slices = Range.splitAll (cells b.latest b.sampled) b.sliceSize := by
  rw [slices, h]
  rfl

theorem slices_of_recent (h : b.mode = .recent) :
    b.slices = (Range.splitAll (cells b.latest b.sampled) b.sliceSize).getLast?.toList := by
  rw [slices, h]
  rfl

theorem separate_slices (b : BlockList) : Separate b.slices := by
  cases h : b.mode with
  | historical =>
      rw [slices_of_historical h]
      exact Range.separate_splitAll ((below_cells b.ascending_sampled).imp Below.overlaps_eq_false) _
  | recent =>
      rw [slices_of_recent h]
      cases (Range.splitAll (cells b.latest b.sampled) b.sliceSize).getLast? with
      | none => exact .nil
      | some s => exact List.pairwise_singleton _ s

theorem valid_of_mem_slices (h : b.mode = .historical) : ∀ s ∈ b.slices, s.valid = true := by
  rw [slices_of_historical h]
  intro s hs
  exact (Range.mem_splitAll hs).1

theorem mem_values_slices (h : b.mode = .historical) {s : Sample} (hs : s ∈ b.samples) (hsx : s.number ≤ x)
    (hx : x ≤ b.latest) : x ∈ values b.slices := by
  rw [slices_of_historical h, Range.values_splitAll]
  exact mem_values_cells b.ascending_sampled (mem_sampled.2 ⟨s, hs, rfl⟩) hsx hx

end Plan.BlockList

namespace Assignment

open Plan (Index)

variable {a : Assignment} {now : Timestamp} {latest : UInt64} {inputs : List (PlanInput Entity UInt64)}

theorem firstBlock_le {input : PlanInput Entity UInt64} (hin : input ∈ inputs) (hv : input.full.valid = true) :
    firstBlock latest inputs ≤ input.full.first := by
  have hmem : input.full.first ∈ (inputs.filter (·.full.valid)).map (·.full.first) :=
    List.mem_map.2 ⟨input, List.mem_filter.2 ⟨hin, hv⟩, rfl⟩
  cases hmin : ((inputs.filter (·.full.valid)).map (·.full.first)).min? with
  | none =>
      rw [List.min?_eq_none_iff] at hmin
      rw [hmin] at hmem
      cases hmem
  | some first =>
      rw [firstBlock, hmin, Option.getD_some]
      exact (List.min?_eq_some_iff.1 hmin).2 _ hmem

theorem firstBlock_le_latest (hend : ∀ input ∈ inputs, input.full.valid = true → input.full.last ≤ latest) :
    firstBlock latest inputs ≤ latest := by
  cases hmin : ((inputs.filter (·.full.valid)).map (·.full.first)).min? with
  | none =>
      rw [firstBlock, hmin]
      exact UInt64.le_refl _
  | some first =>
      obtain ⟨input, hin, heq⟩ := List.mem_map.1 (List.min?_eq_some_iff.1 hmin).1
      obtain ⟨hin, hv⟩ := List.mem_filter.1 hin
      have hrange : input.full.first ≤ input.full.last := (Range.mem_iff.1 (Range.first_mem hv)).2
      rw [firstBlock, hmin, Option.getD_some, ← heq]
      exact UInt64.le_trans hrange (hend input hin hv)

/-- The grid of a pass. -/
def grid (a : Assignment) (now : Timestamp) (latest : UInt64) (inputs : List (PlanInput Entity UInt64)) :
    Plan.BlockList where
  samples := Plan.estimate (firstBlock latest inputs) ⟨latest, now⟩ a.setup.chain.msPerBlock a.setup.shaping.sampling
  latest := latest
  interval := a.setup.shaping.sampling
  msPerBlock := a.setup.chain.msPerBlock
  maxBlocks := a.options.maxRange
  mode := a.setup.behaviour.mode

theorem index_of_blockList (h : a.setup.shaping.index = .blockList) :
    a.index now latest inputs = .fixed (a.grid now latest inputs).slices := by
  rw [index, h]
  rfl

theorem index_of_blob (h : a.setup.shaping.index = .blob) : a.index now latest inputs =
    .blob a.setup.shaping.mergeGap (min a.setup.shaping.sliceSize a.options.maxRange) := by
  rw [index, h]

/-! ### Whether the index is made -/

/-- The samples that the grid of a pass lies between. -/
def gridEnds (a : Assignment) (now : Timestamp) (latest : UInt64) (inputs : List (PlanInput Entity UInt64)) :
    List Plan.Sample :=
  Plan.ends (firstBlock latest inputs) ⟨latest, now⟩ a.setup.chain.msPerBlock

/-- Making the index of a pass returns this one: blobs at once, a grid when its samples are returned. -/
inductive Makes (a : Assignment) (now : Timestamp) (latest : UInt64) (inputs : List (PlanInput Entity UInt64)) :
    Index UInt64 → Prop
  | blob : a.setup.shaping.index = .blob → Makes a now latest inputs
      (.blob a.setup.shaping.mergeGap (min a.setup.shaping.sliceSize a.options.maxRange))
  | grid {samples : List Plan.Sample} : a.setup.shaping.index = .blockList →
      Plan.Returns a.setup.shaping.sampling (a.gridEnds now latest inputs) samples →
      Makes a now latest inputs
        (.fixed (Plan.BlockList.slices { a.grid now latest inputs with samples := Plan.opening samples }))

/-- If the index of a pass is a grid, its ticks fit into the calendar. -/
def TicksFit (a : Assignment) (now : Timestamp) (latest : UInt64) (inputs : List (PlanInput Entity UInt64)) : Prop :=
  a.setup.shaping.index = .blockList → Plan.TicksFit a.setup.shaping.sampling (a.gridEnds now latest inputs)

theorem makes_iff (h : a.TicksFit now latest inputs) {index : Index UInt64} :
    a.Makes now latest inputs index ↔ index = a.index now latest inputs := by
  cases hindex : a.setup.shaping.index with
  | blob =>
      rw [index_of_blob hindex]
      constructor
      · rintro (_ | ⟨hgrid, -⟩)
        · rfl
        · rw [hindex] at hgrid
          cases hgrid
      · rintro rfl
        exact .blob hindex
  | blockList =>
      rw [index_of_blockList hindex]
      constructor
      · rintro (hblob | ⟨-, hsamples⟩)
        · rw [hindex] at hblob
          cases hblob
        · rw [hsamples.eq_interpolate]
          rfl
      · rintro rfl
        exact .grid hindex ((Plan.returns_iff (h hindex)).2 rfl)

/-! ### What the slices hold -/

theorem missing_subset_grid (hmode : a.setup.behaviour.mode = .historical) (hms : 1 ≤ a.setup.chain.msPerBlock)
    (hend : ∀ input ∈ inputs, input.full.valid = true → input.full.last ≤ latest)
    (hnow : 0 < now.millisSince Timestamp.earliest) {input : PlanInput Entity UInt64} (hin : input ∈ inputs) :
    input.missing ⊆ values (a.grid now latest inputs).slices := by
  obtain ⟨s, hs, hnumber⟩ := Plan.exists_estimate_number ⟨latest, now⟩ (firstBlock_le_latest hend) hms hnow
    a.setup.shaping.sampling
  intro x hx
  have hv := Range.valid_of_mem hx.1
  obtain ⟨hfirst, hlast⟩ := Range.mem_iff.1 hx.1
  refine Plan.BlockList.mem_values_slices hmode hs ?_ (UInt64.le_trans hlast (hend input hin hv))
  rw [hnumber]
  exact UInt64.le_trans (firstBlock_le hin hv) hfirst

/-- Whatever a grid is asked for, and blobs when they are asked for all that the inputs miss. -/
theorem missing_subset_slices (hmode : a.setup.behaviour.mode = .historical) (hms : 1 ≤ a.setup.chain.msPerBlock)
    (hend : ∀ input ∈ inputs, input.full.valid = true → input.full.last ≤ latest)
    (hnow : 0 < now.millisSince Timestamp.earliest) {needed : List (Range UInt64)}
    (hneeded : (∀ input ∈ inputs, input.missing ⊆ values needed) ∨ a.setup.shaping.index = .blockList) :
    ∀ input ∈ inputs, input.missing ⊆ values ((a.index now latest inputs).slices needed) := by
  intro input hin
  cases hindex : a.setup.shaping.index with
  | blob =>
      rw [index_of_blob hindex]
      rcases hneeded with hall | hgrid
      · exact (hall input hin).trans (Index.values_subset_blob _ _ needed)
      · rw [hindex] at hgrid
        cases hgrid
  | blockList =>
      rw [index_of_blockList hindex]
      exact missing_subset_grid hmode hms hend hnow hin

theorem requested_subset_slices (hmode : a.setup.behaviour.mode = .historical) (hms : 1 ≤ a.setup.chain.msPerBlock)
    (hend : ∀ input ∈ inputs, input.full.valid = true → input.full.last ≤ latest)
    (hnow : 0 < now.millisSince Timestamp.earliest) (o : Plan.Options) :
    values (Plan.requested o inputs) ⊆ values ((a.index now latest inputs).slices (Plan.requested o inputs)) := by
  cases hindex : a.setup.shaping.index with
  | blob =>
      rw [index_of_blob hindex]
      exact Index.values_subset_blob _ _ _
  | blockList => exact Plan.values_requested_subset (missing_subset_slices hmode hms hend hnow (Or.inr hindex))

theorem valid_of_mem_index (hmode : a.setup.behaviour.mode = .historical) (needed : List (Range UInt64)) :
    ∀ s ∈ (a.index now latest inputs).slices needed, s.valid = true := by
  cases hindex : a.setup.shaping.index with
  | blob =>
      rw [index_of_blob hindex]
      exact fun s hs => (Range.mem_splitAll hs).1
  | blockList =>
      rw [index_of_blockList hindex]
      exact Plan.BlockList.valid_of_mem_slices hmode

theorem separate_index (needed : List (Range UInt64)) : Separate ((a.index now latest inputs).slices needed) := by
  cases hindex : a.setup.shaping.index with
  | blob =>
      rw [index_of_blob hindex]
      exact Index.separate_blob _ _ needed
  | blockList =>
      rw [index_of_blockList hindex]
      exact Plan.BlockList.separate_slices _

/-- In historical mode the index of a pass is made if the ticks of a grid fit into the calendar. Its slices are valid
and never overlap, and they hold every block that an entity misses: those of a grid whatever they are made for, and
blobs when they are made for all that the entities miss. What a pass asks for under its caps lies in the slices that
are made for it. The tip has to be a millisecond later than the earliest point of the calendar. -/
theorem index_reaches_missing (a : Assignment) (now : Timestamp) (latest : UInt64)
    (inputs : List (PlanInput Entity UInt64)) (hmode : a.setup.behaviour.mode = .historical)
    (hms : 1 ≤ a.setup.chain.msPerBlock)
    (hend : ∀ input ∈ inputs, input.full.valid = true → input.full.last ≤ latest)
    (hnow : 0 < now.millisSince Timestamp.earliest) (hticks : a.TicksFit now latest inputs) :
    (∀ index, a.Makes now latest inputs index ↔ index = a.index now latest inputs) ∧
    (∀ needed, (∀ s ∈ (a.index now latest inputs).slices needed, s.valid = true) ∧
      Separate ((a.index now latest inputs).slices needed) ∧
      ((∀ input ∈ inputs, input.missing ⊆ values needed) ∨ a.setup.shaping.index = .blockList →
        ∀ input ∈ inputs, input.missing ⊆ values ((a.index now latest inputs).slices needed))) ∧
    ∀ o : Plan.Options, values (Plan.requested o inputs) ⊆
      values ((a.index now latest inputs).slices (Plan.requested o inputs)) :=
  ⟨fun _ => makes_iff hticks,
    fun needed => ⟨valid_of_mem_index hmode needed, separate_index needed,
      missing_subset_slices hmode hms hend hnow⟩,
    requested_subset_slices hmode hms hend hnow⟩

/-! ## At the start of the calendar -/

/-- A provider that imports one contract along a grid of blocks, a millisecond each. -/
def griddedPool : Assignment where
  setup := ⟨⟨"chain", 1, 0⟩, [], { mode := .historical }, { index := .blockList }, {}, {}, {}⟩
  endpoint := ⟨⟨"http".toList, [], some "node".toList, none, .segments [], none, none⟩, { minDelay := .noLimit }⟩
  costs := []
  entities := [Plan.youngPool]

/-- Two blocks up to the tip were never fetched. -/
def tipPool : PlanInput Entity UInt64 := ⟨Plan.youngPool, ⟨5, 6⟩, [], []⟩

theorem five_missing : (5 : UInt64) ∈ tipPool.missing := ⟨by decide, by decide, by decide⟩

theorem last_tipPool_le : ∀ input ∈ [tipPool], input.full.valid = true → input.full.last ≤ 6 := by
  intro input hin _
  rw [List.mem_singleton.1 hin]
  decide

theorem index_reaches_missing_tipPool :
    0 < Timestamp.epoch.millisSince Timestamp.earliest ∧ griddedPool.TicksFit Timestamp.epoch 6 [tipPool] ∧
      griddedPool.Makes Timestamp.epoch 6 [tipPool] (griddedPool.index Timestamp.epoch 6 [tipPool]) ∧
      (5 : UInt64) ∈ values ((griddedPool.index Timestamp.epoch 6 [tipPool]).slices []) := by
  have hnow : 0 < Timestamp.epoch.millisSince Timestamp.earliest := by decide
  have hticks : griddedPool.TicksFit Timestamp.epoch 6 [tipPool] := fun _ => Plan.ticksFit_of_room (by decide)
  obtain ⟨hmakes, hslices, -⟩ := index_reaches_missing griddedPool Timestamp.epoch 6 [tipPool] rfl (by decide)
    last_tipPool_le hnow hticks
  obtain ⟨-, -, hreach⟩ := hslices []
  exact ⟨hnow, hticks, (hmakes _).2 rfl, hreach (Or.inr rfl) tipPool (List.mem_singleton_self _) five_missing⟩

/-- Half a millisecond after the earliest point of the calendar. -/
def dawn : Timestamp := { Timestamp.earliest with nanos := 500000, nanos_lt := by decide }

/-- Time is counted in whole milliseconds, so at dawn none has passed since the first block, which gets no
sample. -/
theorem index_at_dawn_misses_block :
    griddedPool.setup.behaviour.mode = .historical ∧ 1 ≤ griddedPool.setup.chain.msPerBlock ∧
    Timestamp.earliest.rank < dawn.rank ∧ griddedPool.TicksFit dawn 6 [tipPool] ∧
    (∀ input ∈ [tipPool], input.full.valid = true → input.full.last ≤ 6) ∧
    (5 : UInt64) ∈ tipPool.missing ∧
    ∀ needed, (5 : UInt64) ∉ values ((griddedPool.index dawn 6 [tipPool]).slices needed) := by
  refine ⟨rfl, by decide, by decide, fun _ => Plan.ticksFit_of_room (by decide), last_tipPool_le, five_missing, ?_⟩
  intro needed
  have hslices : (griddedPool.grid dawn 6 [tipPool]).slices = [⟨6, 6⟩] := by cbv
  rw [index_of_blockList rfl, Index.slices, hslices]
  decide

end Assignment

end Backfill
