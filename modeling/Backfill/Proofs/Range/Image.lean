import Backfill.Proofs.Range.Todo

/-!
# Ranges on another axis

Where the values of a discrete axis up to some value have places on another axis that lie in the same order and the
same steps apart, every operation on ranges of such places gives the places of what it gives on the values. What the
steps of the other axis do elsewhere makes no difference, and cutting comes to an end.
-/

namespace Backfill

variable {α β : Type} [Axis α] [Axis β] {f : α → β} {top a b : α}

/-- The places of the values up to `top` lie in the order of the values and the same steps apart. -/
structure Placement (f : α → β) (top : α) : Prop where
  rank_le_iff {a b : α} : Axis.rank a ≤ Axis.rank top → Axis.rank b ≤ Axis.rank top →
    (Axis.rank (f a) ≤ Axis.rank (f b) ↔ Axis.rank a ≤ Axis.rank b)
  next {a : α} : Axis.rank a < Axis.rank top → f (Axis.next a) = Axis.next (f a)
  le_next {a : α} : Axis.rank a ≤ Axis.rank top → Axis.rank (f a) ≤ Axis.rank (Axis.next (f a))
  prev {a b : α} : Axis.rank b < Axis.rank a → Axis.rank a ≤ Axis.rank top → f (Axis.prev a) = Axis.prev (f a)
  /-- Moving ahead agrees as far as it is followed. -/
  advance {a b : α} (n : Nat) : Axis.rank a ≤ Axis.rank b → Axis.rank b ≤ Axis.rank top →
    f (Axis.earlier (Axis.advance a n) b) = Axis.earlier (Axis.advance (f a) n) (f b)
  span {a b : α} : Axis.rank a ≤ Axis.rank top → Axis.rank b ≤ Axis.rank top → Axis.span (f a) (f b) = Axis.span a b

namespace Placement

variable (h : Placement f top) (ha : Axis.rank a ≤ Axis.rank top) (hb : Axis.rank b ≤ Axis.rank top)
include h ha hb

theorem le_iff : f a ≤ f b ↔ a ≤ b := by
  rw [Axis.le_iff_rank, Axis.le_iff_rank, h.rank_le_iff ha hb]

theorem before : Axis.before (f a) (f b) = Axis.before a b := by
  simp only [Axis.before, h.le_iff hb ha]

theorem later : Axis.later (f a) (f b) = f (Axis.later a b) := by
  simp only [Axis.later, h.le_iff ha hb]
  split <;> rfl

theorem earlier : Axis.earlier (f a) (f b) = f (Axis.earlier a b) := by
  simp only [Axis.earlier, h.le_iff ha hb]
  split <;> rfl

/-- A place lies no later than one step after another one exactly if the values do. -/
theorem le_next_iff [DiscreteAxis α] : f b ≤ Axis.next (f a) ↔ b ≤ Axis.next a := by
  have hstep := h.le_next ha
  have hstep' := rank_le_next a
  rcases Int.lt_or_le (Axis.rank a) (Axis.rank b) with hlt | hle
  · have hin : Axis.rank a < Axis.rank top := Int.lt_of_lt_of_le hlt hb
    rw [← h.next hin]
    exact h.le_iff hb (rank_next_le hin)
  · have hplaces := (h.rank_le_iff hb ha).2 hle
    rw [Axis.le_iff_rank, Axis.le_iff_rank]
    omega

end Placement

namespace Range

/-- The range between the places of the bounds. -/
def map (f : α → β) (r : Range α) : Range β := ⟨f r.first, f r.last⟩

/-- Neither bound lies beyond `top`. -/
def Upto (top : α) (r : Range α) : Prop := Axis.rank r.first ≤ Axis.rank top ∧ Axis.rank r.last ≤ Axis.rank top

instance (top : α) (r : Range α) : Decidable (r.Upto top) :=
  inferInstanceAs (Decidable (Axis.rank r.first ≤ Axis.rank top ∧ Axis.rank r.last ≤ Axis.rank top))

/-- Valid ranges that hold nothing but values up to `top` end there at the latest. -/
theorem upto_of_values {pieces ranges : List (Range α)} (hv : ∀ p ∈ pieces, p.valid = true)
    (hsub : values pieces ⊆ values ranges) (hr : ∀ r ∈ ranges, r.Upto top) : ∀ p ∈ pieces, p.Upto top := by
  intro p hp
  have hvalid := valid_iff_rank.1 (hv p hp)
  obtain ⟨r, hmem, hlast⟩ := hsub ⟨p, hp, last_mem (hv p hp)⟩
  have htop := (hr r hmem).2
  rw [mem_iff_rank] at hlast
  unfold Upto
  omega

section Operations

variable (h : Placement f top) {r s : Range α} (hr : r.Upto top) (hs : s.Upto top)

/-! ## Two ranges -/

include h hr

theorem valid_map : (r.map f).valid = r.valid := by
  simp only [valid, map, h.le_iff hr.1 hr.2]

theorem size_map : (r.map f).size = r.size := h.span hr.1 hr.2

include hs

theorem precedes_map : (r.map f).precedes (s.map f) = r.precedes s := by
  simp only [precedes, map, h.before hr.1 hs.1, h.le_iff hr.1 hs.1, h.le_iff hr.2 hs.2]

theorem overlaps_map : (r.map f).overlaps (s.map f) = r.overlaps s := by
  simp only [overlaps, valid_map h hr, valid_map h hs]
  simp only [map, h.le_iff hr.1 hs.2, h.le_iff hs.1 hr.2]

theorem intersect?_map : (r.map f).intersect? (s.map f) = (r.intersect? s).map (map f) := by
  simp only [intersect?, overlaps_map h hr hs]
  split
  · simp only [map, h.later hr.1 hs.1, h.earlier hr.2 hs.2, Option.map_some]
  · rfl

omit hr hs

/-! ## Merging -/

variable {ranges holes : List (Range α)}

theorem mergeSort_map (hranges : ∀ r ∈ ranges, r.Upto top) :
    (ranges.map (map f)).mergeSort precedes = (ranges.mergeSort precedes).map (map f) :=
  (List.map_mergeSort fun a ha b hb => (precedes_map h (hranges a ha) (hranges b hb)).symm).symm

theorem sorted_map (hranges : ∀ r ∈ ranges, r.Upto top) :
    sorted (ranges.map (map f)) = (sorted ranges).map (map f) := by
  have hfilter : (ranges.map (map f)).filter valid = (ranges.filter valid).map (map f) := by
    rw [List.filter_map]
    exact congrArg _ (List.filter_congr fun r hr => valid_map h (hranges r hr))
  rw [sorted, hfilter, sorted, mergeSort_map h fun r hr => hranges r (List.mem_of_mem_filter hr)]

variable [DiscreteAxis α]

theorem joinFrom_map {current : Range α} {rest : List (Range α)} (hc : current.Upto top)
    (hrest : ∀ r ∈ rest, r.Upto top) :
    joinFrom (current.map f) (rest.map (map f)) = (joinFrom current rest).map (map f) := by
  induction rest generalizing current with
  | nil => rfl
  | cons s rest ih =>
      obtain ⟨hs, hrest⟩ := List.forall_mem_cons.1 hrest
      have hjoined : (⟨current.first, Axis.later current.last s.last⟩ : Range α).Upto top := by
        refine ⟨hc.1, ?_⟩
        have hlast := hc.2
        have hlast' := hs.2
        simp only [Axis.rank_later]
        omega
      have htouch : (s.map f).first ≤ Axis.next (current.map f).last ↔ s.first ≤ Axis.next current.last :=
        h.le_next_iff hc.2 hs.1
      have hlater : Axis.later (current.map f).last (s.map f).last = f (Axis.later current.last s.last) :=
        h.later hc.2 hs.2
      rw [List.map_cons, joinFrom, joinFrom, hlater]
      simp only [htouch]
      split
      · exact ih hjoined hrest
      · rw [List.map_cons, ih hs hrest]

theorem merge_map (hranges : ∀ r ∈ ranges, r.Upto top) : merge (ranges.map (map f)) = (merge ranges).map (map f) := by
  have hupto : ∀ r ∈ sorted ranges, r.Upto top := fun r hr => hranges r (mem_sorted.1 hr).1
  rw [merge, sorted_map h hranges, merge]
  cases hsorted : sorted ranges with
  | nil => rfl
  | cons r rest =>
      rw [hsorted] at hupto
      exact joinFrom_map h (hupto r List.mem_cons_self) fun s hs => hupto s (List.mem_cons_of_mem _ hs)

omit h in
theorem upto_merge (hranges : ∀ r ∈ ranges, r.Upto top) : ∀ r ∈ merge ranges, r.Upto top :=
  upto_of_values (merged_merge ranges).valid (values_merge ranges).subset hranges

theorem totalSize_map (hranges : ∀ r ∈ ranges, r.Upto top) : totalSize (ranges.map (map f)) = totalSize ranges := by
  have hsum : ∀ ranges : List (Range α), (∀ r ∈ ranges, r.Upto top) →
      (ranges.map (map f)).foldr (fun r n => r.size + n) 0 = ranges.foldr (fun r n => r.size + n) 0 := by
    intro ranges hranges
    induction ranges with
    | nil => rfl
    | cons r ranges ih =>
        obtain ⟨hr, hranges⟩ := List.forall_mem_cons.1 hranges
        rw [List.map_cons, List.foldr_cons, List.foldr_cons, size_map h hr, ih hranges]
  rw [totalSize, merge_map h hranges, totalSize, hsum _ (upto_merge hranges)]

/-! ## Taking away and clipping -/

omit [DiscreteAxis α] in
theorem beforeHole_map {current hole : Range α} (hc : current.Upto top) (hh : hole.Upto top) :
    beforeHole (current.map f) (hole.map f) = (beforeHole current hole).map (map f) := by
  simp only [beforeHole, map, h.before hc.1 hh.1]
  split
  · rename_i hlt
    rw [← h.prev ((Axis.before_iff _ _).1 hlt) hh.1]
    rfl
  · rfl

theorem cut_map {current : Range α} (hc : current.Upto top) (hholes : ∀ r ∈ holes, r.Upto top) :
    cut (current.map f) (holes.map (map f)) = (cut current holes).map (map f) := by
  induction holes generalizing current with
  | nil => rfl
  | cons hole holes ih =>
      obtain ⟨hh, hholes⟩ := List.forall_mem_cons.1 hholes
      have hfar : Axis.before (current.map f).last (hole.map f).first = Axis.before current.last hole.first :=
        h.before hc.2 hh.1
      have hafter : afterHole (current.map f) (hole.map f) (holes.map (map f)) =
          (afterHole current hole holes).map (map f) := by
        simp only [afterHole, map, h.before hh.2 hc.2]
        split
        · rename_i hlt
          have hlt := (Axis.before_iff _ _).1 hlt
          have hrest : (⟨Axis.next hole.last, current.last⟩ : Range α).Upto top :=
            ⟨Int.le_trans (rank_next_le hlt) hc.2, hc.2⟩
          rw [← h.next (Int.lt_of_lt_of_le hlt hc.2)]
          exact ih hrest hholes
        · rfl
      rw [List.map_cons, cut_cons_eq, cut_cons_eq, overlaps_map h hc hh, hfar, beforeHole_map h hc hh, hafter,
        ih hc hholes]
      split
      · rfl
      · split
        · rfl
        · rw [List.map_append]

theorem exclude_map (hranges : ∀ r ∈ ranges, r.Upto top) (hholes : ∀ r ∈ holes, r.Upto top) :
    exclude (ranges.map (map f)) (holes.map (map f)) = (exclude ranges holes).map (map f) := by
  rw [exclude, merge_map h hranges, merge_map h hholes, exclude, List.flatMap_map, List.map_flatMap]
  exact List.flatMap_congr fun r hr => cut_map h (upto_merge hranges r hr) (upto_merge hholes)

omit h in
theorem upto_exclude (hranges : ∀ r ∈ ranges, r.Upto top) : ∀ r ∈ exclude ranges holes, r.Upto top :=
  upto_of_values (merged_exclude ranges holes).valid (values_exclude ranges holes ▸ Set.sdiff_subset) hranges

theorem clip_map {bounds : Range α} (hranges : ∀ r ∈ ranges, r.Upto top) (hbounds : bounds.Upto top) :
    clip (ranges.map (map f)) (bounds.map f) = (clip ranges bounds).map (map f) := by
  have hcommon : (ranges.map (map f)).filterMap (intersect? · (bounds.map f)) =
      (ranges.filterMap (intersect? · bounds)).map (map f) := by
    rw [List.filterMap_map, List.map_filterMap]
    exact List.filterMap_congr fun r hr => intersect?_map h (hranges r hr) hbounds
  have hupto : ∀ r ∈ ranges.filterMap (intersect? · bounds), r.Upto top := by
    intro r hr
    obtain ⟨s, hs, hr⟩ := List.mem_filterMap.1 hr
    have htop := hranges s hs
    simp only [intersect?] at hr
    split at hr
    · cases hr
      have hfirst := hbounds.1
      simp only [Upto, Axis.rank_later, Axis.rank_earlier] at htop ⊢
      omega
    · cases hr
  rw [clip, hcommon, merge_map h hupto, clip]

omit h in
theorem upto_clip {bounds : Range α} (hranges : ∀ r ∈ ranges, r.Upto top) : ∀ r ∈ clip ranges bounds, r.Upto top :=
  upto_of_values (merged_clip ranges bounds).valid (fun _ hx => (mem_values_clip.1 hx).1) hranges

/-! ## Cutting into pieces -/

section Pieces

variable {length limit : Nat} {start last : α} {pieces : List (Range α)} {order : Order}

omit [DiscreteAxis α] in
theorem pieceAt_map (hs : Axis.rank start ≤ Axis.rank last) (hl : Axis.rank last ≤ Axis.rank top) :
    pieceAt length (f last) (f start) = (pieceAt length last start).map f := by
  rw [pieceAt, map, pieceAt, h.advance _ hs hl]

omit [DiscreteAxis α] in
theorem nextStart?_map (hs : Axis.rank start ≤ Axis.rank last) (hl : Axis.rank last ≤ Axis.rank top) :
    nextStart? length (f last) (f start) = (nextStart? length last start).map f := by
  have hend := Int.le_trans (rank_pieceAt_le length last start) hl
  simp only [nextStart?, pieceAt_map h hs hl, map, h.le_iff hl hend]
  split
  · rfl
  · rename_i hlt
    rw [Axis.le_iff_rank] at hlt
    rw [Option.map_some, h.next (by omega)]

theorem Cuts.map (hcuts : Cuts length last start pieces) (hs : Axis.rank start ≤ Axis.rank last)
    (hl : Axis.rank last ≤ Axis.rank top) : Cuts length (f last) (f start) (pieces.map (Range.map f)) := by
  induction hcuts with
  | done hstop =>
      rw [List.map_singleton, ← pieceAt_map h hs hl]
      exact .done (by rw [nextStart?_map h hs hl, hstop]; rfl)
  | more hnext _ ih =>
      rw [List.map_cons, ← pieceAt_map h hs hl]
      exact .more (by rw [nextStart?_map h hs hl, hnext]; rfl) (ih (rank_nextStart hnext).2)

variable {r : Range α}

theorem splitEnds_map (hr : r.Upto top) (length : Nat) : SplitEnds (r.map f) length := by
  intro hv
  rw [valid_map h hr] at hv
  exact ⟨_, (cuts_split hv length).map h (valid_iff_rank.1 hv) hr.2⟩

theorem split_map (hr : r.Upto top) (length : Nat) : split (r.map f) length = (split r length).map (Range.map f) := by
  have hvalid := valid_map h hr
  by_cases hv : r.valid = true
  · exact Cuts.split_eq (hvalid.trans hv) ((cuts_split hv length).map h (valid_iff_rank.1 hv) hr.2)
  · rw [split_of_not_valid hv, split_of_not_valid (by rwa [hvalid]), List.map_nil]

variable {ranges : List (Range α)} (hranges : ∀ r ∈ ranges, r.Upto top)
include hranges

theorem splitAll_map (length : Nat) :
    splitAll (ranges.map (Range.map f)) length = (splitAll ranges length).map (Range.map f) := by
  rw [splitAll, splitAll, List.flatMap_map, List.map_flatMap]
  exact List.flatMap_congr fun r hr => split_map h (hranges r hr) length

omit h in
theorem upto_splitAll (length : Nat) : ∀ p ∈ splitAll ranges length, p.Upto top :=
  upto_of_values (fun _ hp => (mem_splitAll hp).1) (values_splitAll ranges length).subset hranges

theorem takePieces_map (length limit : Nat) (order : Order) : takePieces (ranges.map (Range.map f)) length limit order =
    (takePieces ranges length limit order).map (Range.map f) := by
  have hsorted := mergeSort_map h (upto_splitAll hranges length)
  cases order with
  | oldestFirst => simp only [takePieces, splitAll_map h hranges, hsorted, List.map_take]
  | newestFirst => simp only [takePieces, splitAll_map h hranges, hsorted, List.map_take, List.map_reverse]

end Pieces

/-! ## What is asked for next -/

def Todo.map (f : α → β) (todo : Todo α) : Todo β := ⟨todo.fresh.map (Range.map f), todo.retries.map (Range.map f)⟩

section Todo

variable {full : Range α} {covered toRetry : List (Range α)} (hfull : full.Upto top)
  (hcovered : ∀ r ∈ covered, r.Upto top) (hretry : ∀ r ∈ toRetry, r.Upto top)
include hfull hcovered hretry

theorem left_map : exclude [full.map f] (covered.map (map f) ++ clip (toRetry.map (map f)) (full.map f)) =
    (exclude [full] (covered ++ clip toRetry full)).map (map f) := by
  rw [clip_map h hretry hfull, ← List.map_append]
  exact exclude_map h (List.forall_mem_singleton.2 hfull) (List.forall_mem_append.2 ⟨hcovered, upto_clip hretry⟩)

theorem todo_map (length limit : Nat) :
    todo (full.map f) (covered.map (map f)) (toRetry.map (map f)) length limit =
      (todo full covered toRetry length limit).map f := by
  have hsingle : ∀ r ∈ [full], r.Upto top := List.forall_mem_singleton.2 hfull
  -- what is left first: clipping is part of it
  simp only [todo, valid_map h hfull, left_map h hfull hcovered hretry]
  simp only [clip_map h hretry hfull, takePieces_map h (upto_exclude hsingle), takePieces_map h (upto_clip hretry),
    List.length_map]
  split <;> rfl

theorem splitEnds_todo_map (length : Nat) :
    ∀ r ∈ exclude [full.map f] (covered.map (map f) ++ clip (toRetry.map (map f)) (full.map f)) ++
      clip (toRetry.map (map f)) (full.map f), SplitEnds r length := by
  rw [left_map h hfull hcovered hretry, clip_map h hretry hfull]
  refine List.forall_mem_append.2 ⟨List.forall_mem_map.2 fun r hr => ?_, List.forall_mem_map.2 fun r hr => ?_⟩
  · exact splitEnds_map h (upto_exclude (List.forall_mem_singleton.2 hfull) r hr) length
  · exact splitEnds_map h (upto_clip hretry r hr) length

end Todo

end Operations

end Range

end Backfill
