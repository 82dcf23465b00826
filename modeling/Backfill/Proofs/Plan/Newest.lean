import Backfill.Proofs.Plan.Grid
import Backfill.Proofs.Plan.Reach
import Backfill.Proofs.Plan.Recent
import Backfill.Proofs.Plan.Retries
import Backfill.Proofs.Plan.Scans

/-!
# Whether a recent pass reaches the newest block

What is missing is taken up from its newest end, so the newest value that any input misses is served whenever the
slices hold it at all. Blobs hold whatever they are made for. A grid keeps only its last slice in recent mode, and
that one ends at the tip: it holds the newest settled block just when the wait is no longer than what whole slices
leave over behind the newest sampled block.
-/

namespace Backfill

open Range (Below Merged Separate values)

namespace Plan

/-! ## The newest missing value -/

section Turns

variable {α : Type} [Axis α] {cap used : Nat} {parts fresh : List (Range α)} {now got : List (List (Range α))}
  {x : α}

variable [DiscreteAxis α]

theorem Turn.newest_given (h : Turn cap used parts now) (hroom : used < cap) (hparts : Merged parts)
    (hx : x ∈ values parts) (htop : ∀ y ∈ values parts, Axis.rank y ≤ Axis.rank x) : x ∈ values now.flatten := by
  cases h with
  | passed hno =>
      rcases hno with hfull | rfl
      · omega
      · rw [Range.values_nil] at hx
        exact absurd hx (Set.notMem_empty x)
  | together _ _ => rwa [List.flatten_singleton]
  | alone _ _ =>
      rw [flatten_map_singleton]
      exact Range.mem_values_take_reverse hparts.below hparts.valid hx htop (Nat.sub_pos_of_lt hroom)

theorem Turns.newest_given {slice : Range α} {slices : List (Range α)}
    (h : Turns cap fresh used (slice :: slices) got) (hroom : used < cap) (hx : x ∈ values fresh) (hslice : x ∈ slice)
    (htop : ∀ y ∈ values fresh, Axis.rank y ≤ Axis.rank x) : x ∈ values got.flatten := by
  cases h with
  | cons hturn _ =>
      rw [List.flatten_append, Range.values_append]
      left
      refine hturn.newest_given hroom (Range.merged_clip fresh slice) (Range.mem_values_clip.2 ⟨hx, hslice⟩) ?_
      exact fun y hy => htop y (Range.mem_values_clip.1 hy).1

end Turns

variable {ε α : Type} [Axis α] [DiscreteAxis α] {o : Options} {index : Index α} {inputs : List (PlanInput ε α)}
  {input : PlanInput ε α} {askers : List (Asker ε α)} {x : α}

theorem newest_mem_fresh {asker : Asker ε α} (ha : asker? o input = some asker) (hcap : 0 < o.maxQueries)
    (hx : x ∈ input.missing) (htop : ∀ y ∈ input.missing, Axis.rank y ≤ Axis.rank x) : x ∈ values asker.fresh :=
  (keepsLater_fresh ha).greatest_mem (values_fresh_subset ha) (fresh_nonempty ha hcap ⟨x, hx⟩) hx htop

omit [DiscreteAxis α] in
theorem descending_orderedSlices (maxRange : Nat) (index : Index α) (askers : List (Asker ε α)) :
    (orderedSlices maxRange index askers).Pairwise fun s t => Axis.rank t.first ≤ Axis.rank s.first := by
  simp only [orderedSlices]
  split
  · exact .nil
  · refine (List.pairwise_mergeSort ?_ ?_ _).imp fun h => (Axis.le_iff_rank _ _).1 (of_decide_eq_true h)
    · intro r s t hrs hst
      simp only [decide_eq_true_eq, Axis.le_iff_rank] at hrs hst ⊢
      omega
    · intro r s
      simp only [Bool.or_eq_true, decide_eq_true_eq, Axis.le_iff_rank]
      omega

/-- Slices that do not overlap are in order from the newest one downwards. -/
theorem below_orderedSlices (hs : Separate (index.slices (Range.merge (askers.flatMap (·.fresh))))) (maxRange : Nat) :
    (orderedSlices maxRange index askers).Pairwise fun s t => Below t s := by
  have hboth := (descending_orderedSlices maxRange index askers).and (separate_orderedSlices hs maxRange)
  refine hboth.imp_of_mem ?_
  rintro s t hsmem - ⟨hfirst, hover⟩
  have hv := (Range.mem_splitAll (mem_splitAll_of_mem_orderedSlices hsmem)).1
  have hout := Range.overlaps_eq_false_iff.1 hover s.first (Range.first_mem hv)
  rw [Range.mem_iff_rank] at hout
  unfold Below
  omega

theorem exists_fresh_of_mem_orderedSlices {maxRange : Nat} {slice : Range α}
    (hs : slice ∈ orderedSlices maxRange index askers) :
    ∃ y ∈ slice, ∃ asker ∈ askers, y ∈ values asker.fresh := by
  simp only [orderedSlices] at hs
  split at hs
  · cases hs
  · obtain ⟨need, hneed, hover⟩ := List.any_eq_true.1 (List.mem_filter.1 (List.mem_mergeSort.1 hs)).2
    obtain ⟨y, hyneed, hys⟩ := Range.overlaps_iff.1 hover
    have hy : y ∈ values (askers.flatMap (·.fresh)) := by
      rw [← Range.values_merge]
      exact ⟨need, hneed, hyneed⟩
    obtain ⟨r, hr, hyr⟩ := hy
    obtain ⟨asker, ha, hr⟩ := List.mem_flatMap.1 hr
    exact ⟨y, hys, asker, ha, r, hr, hyr⟩

/-- A value that no asker's fresh ranges exceed lies in the first slice, if in any. -/
theorem orderedSlices_eq_cons {maxRange : Nat}
    (hs : Separate (index.slices (Range.merge (askers.flatMap (·.fresh)))))
    (htop : ∀ asker ∈ askers, ∀ y ∈ values asker.fresh, Axis.rank y ≤ Axis.rank x)
    (hx : x ∈ values (orderedSlices maxRange index askers)) :
    ∃ slice slices, orderedSlices maxRange index askers = slice :: slices ∧ x ∈ slice := by
  have hdown := below_orderedSlices hs maxRange
  obtain ⟨t, ht, hxt⟩ := hx
  cases hord : orderedSlices maxRange index askers with
  | nil =>
      rw [hord] at ht
      cases ht
  | cons s rest =>
      refine ⟨s, rest, rfl, ?_⟩
      have hsmem : s ∈ orderedSlices maxRange index askers := hord ▸ List.mem_cons_self
      obtain ⟨y, hys, asker, ha, hy⟩ := exists_fresh_of_mem_orderedSlices hsmem
      rw [hord] at ht hdown
      rcases List.mem_cons.1 ht with rfl | hrest
      · exact hxt
      · -- a later slice lies below what the first one is made for
        have hbelow : Below t s := (List.pairwise_cons.1 hdown).1 t hrest
        have hle := htop asker ha y hy
        rw [Range.mem_iff_rank] at hys hxt
        unfold Below at hbelow
        omega

variable [DecidableEq α] {who : ε → Bool}

theorem Only.newest_given (h : Only who inputs input) (hs : Separate (index.slices (requested o inputs)))
    (hcap : 0 < o.maxQueries) (htop : ∀ other ∈ inputs, ∀ y ∈ other.missing, Axis.rank y ≤ Axis.rank x)
    (hx : x ∈ input.missing) (hslices : x ∈ values (index.slices (requested o inputs))) :
    x ∈ values (given who (optimize o index inputs).queries) := by
  obtain ⟨asker, ha⟩ := exists_asker? (o := o) (Range.valid_of_mem hx.1)
  obtain ⟨got, hturns, hgiven⟩ := h.turns index ha
  have hfresh := newest_mem_fresh ha hcap hx (htop input h.mem)
  have hall : ∀ a ∈ inputs.filterMap (asker? o), ∀ y ∈ values a.fresh, Axis.rank y ≤ Axis.rank x := by
    intro a hmem y hy
    obtain ⟨other, ho, ha⟩ := List.mem_filterMap.1 hmem
    exact htop other ho y (values_fresh_subset ha hy)
  obtain ⟨slice, slices, hord, hslice⟩ := orderedSlices_eq_cons hs hall
    (mem_values_orderedSlices (max 1 o.maxRange) (List.mem_filterMap.2 ⟨input, h.mem, ha⟩) hfresh hslices)
  rw [hord] at hturns
  rw [hgiven, Range.values_append]
  exact Or.inl (hturns.newest_given hcap hfresh hslice (hall asker (List.mem_filterMap.2 ⟨input, h.mem, ha⟩)))

theorem Only.mem_slices_of_given (h : Only who inputs input)
    (hx : x ∈ values (given who (optimize o index inputs).queries)) :
    x ∈ input.failed ∨ x ∈ values (index.slices (requested o inputs)) := by
  have hneeded := h.given_subset hx
  obtain ⟨asker, ha⟩ := exists_asker? (o := o) (Range.valid_of_mem hneeded.1)
  obtain ⟨got, hturns, hgiven⟩ := h.turns index ha
  rw [hgiven, Range.values_append] at hx
  rcases hx with hx | hx
  · obtain ⟨slice, hslice, hx⟩ := (hturns.values_subset hx).2
    rw [← Range.values_splitAll _ (max 1 o.maxRange)]
    exact Or.inr ⟨slice, mem_splitAll_of_mem_orderedSlices hslice, hx⟩
  · exact Or.inl (values_retries ha ▸ Range.values_takePieces_subset _ _ _ _ hx)

/-- When nothing failed before, the newest value that any input misses reaches the entities that miss it just when
the slices hold it. -/
theorem newest_servedTo_iff (hs : Separate (index.slices (requested o inputs))) (hcap : 0 < o.maxQueries)
    (hfailed : ∀ other ∈ inputs, other.failed = ∅)
    (htop : ∀ other ∈ inputs, ∀ y ∈ other.missing, Axis.rank y ≤ Axis.rank x) (hin : input ∈ inputs)
    (hx : x ∈ input.missing) : x ∈ servedTo input.entity (optimize o index inputs).queries ↔
      x ∈ values (index.slices (requested o inputs)) := by
  rw [mem_servedTo_optimize]
  rw [← requested_placed] at hs ⊢
  constructor
  · rintro ⟨i, other, hi, -, hgiven⟩
    rcases (only_placed hi).mem_slices_of_given hgiven with hretry | hslices
    · have hnone : x ∈ other.failed := hretry
      rw [hfailed other (List.mem_of_getElem? hi)] at hnone
      exact absurd hnone (Set.notMem_empty x)
    · exact hslices
  · intro hslices
    obtain ⟨i, hi⟩ := List.mem_iff_getElem?.1 hin
    refine ⟨i, input, hi, rfl, (only_placed hi).newest_given hs hcap ?_ hx hslices⟩
    rintro other ho
    obtain ⟨⟨plain, j⟩, hj, rfl⟩ := List.mem_map.1 ho
    exact htop plain (List.mem_of_getElem? (List.mk_mem_zipIdx_iff_getElem?.1 hj))

/-! ## The newest slice of a grid -/

namespace BlockList

variable {b : BlockList} {latest y : UInt64} {numbers : List UInt64}

theorem getLast?_cells (latest : UInt64) (numbers : List UInt64) :
    (cells latest numbers).getLast? = numbers.getLast?.map fun n => ⟨n, if n ≤ latest then latest else n⟩ := by
  induction numbers using cells.induct with
  | case1 => rfl
  | case2 last => rfl
  | case3 a b rest ih => rw [cells, List.getLast?_cons, ih, List.getLast?_cons_cons, List.getLast?_cons]; rfl

/-- The newest slice ends at the tip, and holds what whole slices leave over behind the newest sampled block. -/
theorem mem_slices_recent_iff (h : b.mode = .recent) (hy : y ≤ b.latest) : y ∈ values b.slices ↔
    ∃ newest, b.sampled.getLast? = some newest ∧ newest ≤ b.latest ∧
      b.latest.toNat - y.toNat ≤ (b.latest.toNat - newest.toNat) % b.sliceSize := by
  rw [slices_of_recent h]
  cases hnewest : b.sampled.getLast? with
  | none =>
      rw [List.getLast?_eq_none_iff.1 hnewest]
      simp [cells, Range.splitAll]
  | some newest =>
      have hcell := getLast?_cells b.latest b.sampled
      rw [hnewest, Option.map_some] at hcell
      have hsize : max b.sliceSize 1 = b.sliceSize := Nat.max_eq_left (Nat.le_max_left ..)
      have hyle := UInt64.le_iff_toNat_le.1 hy
      by_cases hle : newest ≤ b.latest
      · rw [if_pos hle] at hcell
        have hlatest := UInt64.le_iff_toNat_le.1 hle
        have hvalid : (⟨newest, b.latest⟩ : Range UInt64).valid = true := decide_eq_true hle
        obtain ⟨p, hp, hend, hrest⟩ := Range.getLast?_split hvalid b.sliceSize
        have hleft : (((b.latest.toNat - newest.toNat) % b.sliceSize : Nat) : Int) =
            b.latest.toNat - p.first.toNat := by
          rw [Int.natCast_emod, Int.natCast_sub hlatest]
          simp only [rank_word, hsize] at hrest
          exact hrest.symm
        rw [Range.getLast?_splitAll hcell hvalid, hp, Option.toList_some, Range.mem_values_singleton,
          Range.mem_iff_rank, hend]
        simp only [rank_word, Option.some.injEq, exists_eq_left', hle, true_and]
        omega
      · rw [if_neg hle] at hcell
        have hvalid : (⟨newest, newest⟩ : Range UInt64).valid = true := decide_eq_true (UInt64.le_refl newest)
        obtain ⟨p, hp, hend, hrest⟩ := Range.getLast?_split hvalid b.sliceSize
        rw [Range.getLast?_splitAll hcell hvalid, hp, Option.toList_some, Range.mem_values_singleton,
          Range.mem_iff_rank, hend]
        rw [UInt64.le_iff_toNat_le] at hle
        simp only [rank_word, Int.sub_self, Int.zero_emod] at hrest
        simp only [rank_word, Option.some.injEq, exists_eq_left', UInt64.le_iff_toNat_le, hle, false_and, iff_false]
        omega

end BlockList

/-! ## Recent inputs -/

/-- No bounds narrow the window, and failures do not count. -/
theorem full_of_planInput_recent {ctx : PassContext} {last : Option UInt64} {e : Entity} {state : Option ImportState}
    {input : PlanInput Entity UInt64} (hmode : ctx.behaviour.mode = .recent) (hforce : ctx.behaviour.force = none)
    (h : planInput ctx last e state = .ok input) : input.full = recentWindow ctx last ∧ input.toRetry = [] := by
  rw [planInput_recent hmode, hforce, Except.ok.injEq] at h
  subst h
  refine ⟨rfl, ?_⟩
  change (known ctx.behaviour state).2 = []
  unfold known
  split
  · split
    · rfl
    · rw [hmode]
      rfl
  · rfl

end Plan

namespace Assignment

variable {a : Assignment} {now : Timestamp} {latest : UInt64} {lastImported : Keyed UInt64} {store : Store}
  {input : PlanInput Entity UInt64}

theorem full_of_mem_inputs_recent (hmode : a.setup.behaviour.mode = .recent) (hforce : a.setup.behaviour.force = none)
    (hin : input ∈ a.inputs latest lastImported store) :
    (∃ last, input.full = Plan.recentWindow (a.passContext latest) last) ∧ input.toRetry = [] := by
  obtain ⟨e, -, he⟩ := List.mem_filterMap.1 hin
  obtain ⟨hfull, hretry⟩ := Plan.full_of_planInput_recent hmode hforce (Plan.planInput_of_toOption he)
  exact ⟨⟨_, hfull⟩, hretry⟩

/-- In recent mode the index of a pass is made if the ticks of a grid fit into the calendar, and the range of every
entity ends at the newest settled block. The pass serves that block to the entities that lack it if its slices are
blobs; with a grid it does so just when the wait is no longer than what whole slices leave over behind the newest
sampled block. -/
theorem recent_pass_reaches_newest_iff (a : Assignment) (config : Plan.BatchConfig) (now : Timestamp) (latest : UInt64)
    (lastImported : Keyed UInt64) (store : Store) (hmode : a.setup.behaviour.mode = .recent)
    (hforce : a.setup.behaviour.force = none) (hqueries : 1 ≤ a.options.maxQueries)
    (hticks : a.TicksFit now latest (a.inputs latest lastImported store))
    {input : PlanInput Entity UInt64} (hin : input ∈ a.inputs latest lastImported store)
    (hnew : input.full.last ∉ values input.covered) :
    (∀ index, a.Makes now latest (a.inputs latest lastImported store) index ↔
      index = a.index now latest (a.inputs latest lastImported store)) ∧
    input.full.last.toNat = latest.toNat - a.setup.behaviour.wait.toNat ∧
    (input.full.last ∈ Plan.servedTo input.entity (a.plan config now latest lastImported store).1.queries ↔
      a.setup.shaping.index = .blob ∨
      ∃ newest, (a.grid now latest (a.inputs latest lastImported store)).sampled.getLast? = some newest ∧
        newest ≤ latest ∧ latest.toNat - input.full.last.toNat ≤
          (latest.toNat - newest.toNat) % (a.grid now latest (a.inputs latest lastImported store)).sliceSize) := by
  obtain ⟨⟨last, hfull⟩, hretry⟩ := full_of_mem_inputs_recent hmode hforce hin
  have hlast : input.full.last.toNat = latest.toNat - a.setup.behaviour.wait.toNat := by
    rw [hfull]
    exact (a.passContext latest).toNat_clampWord_settled
  refine ⟨fun _ => makes_iff hticks, hlast, ?_⟩
  have hmissing : input.full.last ∈ input.missing := by
    refine ⟨Range.last_mem (hfull ▸ Plan.valid_recentWindow), hnew, ?_⟩
    rw [hretry, Range.values_nil]
    exact Set.notMem_empty _
  have htop : ∀ other ∈ a.inputs latest lastImported store, ∀ y ∈ other.missing,
      Axis.rank y ≤ Axis.rank input.full.last := by
    intro other ho y hy
    obtain ⟨⟨last', hfull'⟩, -⟩ := full_of_mem_inputs_recent hmode hforce ho
    have hsettled := (Plan.mem_recentWindow.1 (hfull' ▸ hy.1)).2
    rw [rank_word, rank_word, hlast]
    exact_mod_cast hsettled
  have hfailed : ∀ other ∈ a.inputs latest lastImported store, other.failed = ∅ := by
    intro other ho
    rw [PlanInput.failed, (full_of_mem_inputs_recent hmode hforce ho).2]
    simp
  refine (Plan.newest_servedTo_iff (separate_index _) hqueries hfailed htop hin hmissing).trans ?_
  cases hindex : a.setup.shaping.index with
  | blob =>
      rw [index_of_blob hindex]
      refine iff_of_true ?_ (Or.inl rfl)
      obtain ⟨asker, ha⟩ := Plan.exists_asker? (o := a.options) (Range.valid_of_mem hmissing.1)
      exact Plan.Index.values_subset_blob _ _ _ (Plan.values_fresh_subset_requested hin ha
        (Plan.newest_mem_fresh ha hqueries hmissing (htop input hin)))
  | blockList =>
      have hle : input.full.last ≤ latest := UInt64.le_iff_toNat_le.2 (by omega)
      rw [index_of_blockList hindex]
      exact (Plan.BlockList.mem_slices_recent_iff hmode hle).trans (by simp [grid])

/-! ## A window behind the newest slice -/

/-- A provider that imports the newest blocks of one contract along a grid, two blocks a query, a millisecond each. -/
def recentPool (wait : UInt64) : Assignment where
  setup := ⟨⟨"chain", 1, 0⟩, [], { mode := .recent, wait }, { index := .blockList, maxBlocks := 2 }, {}, {}, {}⟩
  endpoint := griddedPool.endpoint
  costs := []
  entities := [Plan.youngPool]

/-- Nothing of the contract is imported yet. -/
def newPool : Store := ⟨[("pool", Plan.youngPool.initialState Timestamp.epoch)]⟩

/-- One block is left over behind block 5, and one block is kept away from the tip. -/
theorem recent_pass_reaches_newest_iff_recentPool :
    (recentPool 1).TicksFit Timestamp.epoch 8 ((recentPool 1).inputs 8 {} newPool) ∧
    (⟨Plan.youngPool, ⟨5, 7⟩, [], []⟩ : PlanInput Entity UInt64) ∈ (recentPool 1).inputs 8 {} newPool ∧
    (7 : UInt64) ∈ Plan.servedTo Plan.youngPool
      ((recentPool 1).plan ⟨1, 1⟩ Timestamp.epoch 8 {} newPool).1.queries := by
  have hinputs : (recentPool 1).inputs 8 {} newPool = [⟨Plan.youngPool, ⟨5, 7⟩, [], []⟩] := by cbv
  have hin : (⟨Plan.youngPool, ⟨5, 7⟩, [], []⟩ : PlanInput Entity UInt64) ∈ (recentPool 1).inputs 8 {} newPool := by
    rw [hinputs]
    exact List.mem_singleton_self _
  have hticks : (recentPool 1).TicksFit Timestamp.epoch 8 ((recentPool 1).inputs 8 {} newPool) := by
    rw [hinputs]
    exact fun _ => Plan.ticksFit_of_room (by decide)
  obtain ⟨-, -, hserved⟩ := recent_pass_reaches_newest_iff (recentPool 1) ⟨1, 1⟩ Timestamp.epoch 8 {} newPool rfl rfl
    (by decide) hticks hin (by decide)
  exact ⟨hticks, hin, hserved.2 (Or.inr ⟨5, by decide +kernel, by decide, by decide +kernel⟩)⟩

/-- Three blocks are kept away from the tip, and the newest slice ends with the tip and holds two: it lies beyond the
window, and the pass asks for nothing. -/
theorem grid_beyond_window_misses_newest :
    (recentPool 3).setup.behaviour.mode = .recent ∧ (recentPool 3).setup.behaviour.force = none ∧
    1 ≤ (recentPool 3).options.maxQueries ∧
    (recentPool 3).TicksFit Timestamp.epoch 8 ((recentPool 3).inputs 8 {} newPool) ∧
    (⟨Plan.youngPool, ⟨3, 5⟩, [], []⟩ : PlanInput Entity UInt64) ∈ (recentPool 3).inputs 8 {} newPool ∧
    (5 : UInt64) ∉ values ([] : List (Range UInt64)) ∧
    (5 : UInt64) ∉ Plan.servedTo Plan.youngPool
      ((recentPool 3).plan ⟨1, 1⟩ Timestamp.epoch 8 {} newPool).1.queries := by
  have hinputs : (recentPool 3).inputs 8 {} newPool = [⟨Plan.youngPool, ⟨3, 5⟩, [], []⟩] := by cbv
  have hslices : ((recentPool 3).grid Timestamp.epoch 8 [⟨Plan.youngPool, ⟨3, 5⟩, [], []⟩]).slices = [⟨7, 8⟩] := by
    decide +kernel
  have hqueries : ((recentPool 3).plan ⟨1, 1⟩ Timestamp.epoch 8 {} newPool).1.queries = [] := by
    rw [plan, hinputs, index_of_blockList rfl, hslices]
    cbv
  refine ⟨rfl, rfl, by decide, ?_, ?_, by decide, ?_⟩
  · rw [hinputs]
    exact fun _ => Plan.ticksFit_of_room (by decide)
  · rw [hinputs]
    exact List.mem_singleton_self _
  · rw [hqueries]
    rintro ⟨q, hq, -⟩
    cases hq

end Assignment

end Backfill
