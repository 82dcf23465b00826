import Backfill.Proofs.Range.Exclude
import Backfill.Proofs.Range.Pieces

/-!
# The pieces of many ranges

The pieces of ranges are valid, hold at most the allowed number of steps, and together hold exactly the values of
the ranges; of a merged list they come one after another. A limit keeps the pieces at one end; pieces are no more
than the values that they hold, so a limit of that size keeps all of them.
-/

namespace Backfill.Range

variable {α : Type} [Axis α]

theorem mem_takePieces {ranges : List (Range α)} {length limit : Nat} {order : Order} {p : Range α}
    (hp : p ∈ takePieces ranges length limit order) : p ∈ splitAll ranges length := by
  cases order with
  | oldestFirst => exact List.mem_mergeSort.1 (List.mem_of_mem_take hp)
  | newestFirst => exact List.mem_mergeSort.1 (List.mem_reverse.1 (List.mem_of_mem_take hp))

theorem length_takePieces_le (ranges : List (Range α)) (length limit : Nat) (order : Order) :
    (takePieces ranges length limit order).length ≤ limit := by
  cases order with
  | oldestFirst => exact List.length_take_le ..
  | newestFirst => exact List.length_take_le ..

/-! ## All pieces -/

variable [DiscreteAxis α]

@[simp] theorem values_splitAll (ranges : List (Range α)) (length : Nat) :
    values (splitAll ranges length) = values ranges := by
  ext x
  constructor
  · rintro ⟨p, hp, hx⟩
    obtain ⟨r, hr, hp⟩ := List.mem_flatMap.1 hp
    exact ⟨r, hr, subset_of_mem_split hp x hx⟩
  · rintro ⟨r, hr, hx⟩
    obtain ⟨p, hp, hx⟩ := (mem_values_split length).2 hx
    exact ⟨p, List.mem_flatMap.2 ⟨r, hr, hp⟩, hx⟩

theorem mem_splitAll {ranges : List (Range α)} {p : Range α} {length : Nat} (hp : p ∈ splitAll ranges length) :
    p.valid = true ∧ Axis.rank p.last - Axis.rank p.first < (max length 1 : Nat) := by
  obtain ⟨r, _, hp⟩ := List.mem_flatMap.1 hp
  exact mem_split hp

theorem separate_splitAll {ranges : List (Range α)} (h : Separate ranges) (length : Nat) :
    Separate (splitAll ranges length) := by
  refine List.pairwise_flatMap.2 ⟨fun r _ => (below_split r length).imp Below.overlaps_eq_false, h.imp ?_⟩
  intro a b hab p hp q hq
  rw [overlaps_eq_false_iff] at hab ⊢
  exact fun x hx hx' => hab x (subset_of_mem_split hp x hx) (subset_of_mem_split hq x hx')

theorem getLast?_splitAll {ranges : List (Range α)} {last : Range α} (h : ranges.getLast? = some last)
    (hv : last.valid = true) (length : Nat) :
    (splitAll ranges length).getLast? = (split last length).getLast? := by
  obtain ⟨earlier, rfl⟩ := List.getLast?_eq_some_iff.1 h
  obtain ⟨p, hp, -⟩ := getLast?_split hv length
  rw [splitAll, List.flatMap_append, List.flatMap_singleton, List.getLast?_append, hp]
  rfl

theorem below_splitAll {ranges : List (Range α)} (h : ranges.Pairwise Below) (length : Nat) :
    (splitAll ranges length).Pairwise Below := by
  refine List.pairwise_flatMap.2 ⟨fun r _ => below_split r length, h.imp ?_⟩
  intro a b hab p hp q hq
  have hpl := subset_of_mem_split hp _ (last_mem (mem_split hp).1)
  have hqf := subset_of_mem_split hq _ (first_mem (mem_split hq).1)
  rw [mem_iff_rank] at hpl hqf
  unfold Below at hab ⊢
  omega

/-! ## Tilings -/

/-- Valid ranges, each of which begins one step after the one before ends. -/
structure Consecutive (ranges : List (Range α)) : Prop where
  valid : ∀ r ∈ ranges, r.valid = true
  chain : ranges.IsChain fun r s => Axis.rank s.first = Axis.rank r.last + 1

theorem head?_split {r : Range α} (hv : r.valid = true) (length : Nat) :
    (split r length).head?.map Range.first = some r.first := (cuts_split hv length).head?_eq

theorem split_ne_nil {r : Range α} (hv : r.valid = true) (length : Nat) : split r length ≠ [] :=
  (cuts_split hv length).ne_nil

theorem head?_splitAll {ranges : List (Range α)} (hv : ∀ r ∈ ranges, r.valid = true) (length : Nat) :
    (splitAll ranges length).head?.map Range.first = ranges.head?.map Range.first := by
  cases ranges with
  | nil => rfl
  | cons r rest =>
      have hr := hv r List.mem_cons_self
      rw [splitAll, List.flatMap_cons, List.head?_append_of_ne_nil _ (split_ne_nil hr length), head?_split hr]
      rfl

/-- Every range begins with a piece. -/
theorem exists_piece_first {ranges : List (Range α)} {r : Range α} (hr : r ∈ ranges) (hv : r.valid = true)
    (length : Nat) : ∃ p ∈ splitAll ranges length, p.first = r.first := by
  obtain ⟨p, hp, hfirst⟩ := Option.map_eq_some_iff.1 (head?_split hv length)
  exact ⟨p, List.mem_flatMap.2 ⟨r, hr, List.mem_of_mem_head? hp⟩, hfirst⟩

theorem Consecutive.splitAll {ranges : List (Range α)} (h : Consecutive ranges) (length : Nat) :
    Consecutive (splitAll ranges length) := by
  refine ⟨fun p hp => (mem_splitAll hp).1, ?_⟩
  have hne : ([] : List (Range α)) ∉ ranges.map (split · length) := by
    intro hmem
    obtain ⟨r, hr, hnil⟩ := List.mem_map.1 hmem
    exact split_ne_nil (h.valid r hr) length hnil
  rw [Range.splitAll, List.flatMap_def, List.isChain_flatten hne, List.isChain_map]
  constructor
  · intro pieces hpieces
    obtain ⟨r, hr, rfl⟩ := List.mem_map.1 hpieces
    exact (cuts_split (h.valid r hr) length).consecutive
  · -- where one range ends and the next begins, the pieces do as well
    refine h.chain.imp_of_mem_imp fun r s hr hs hrs p hp q hq => ?_
    obtain ⟨last, hlast, hend, -⟩ := getLast?_split (h.valid r hr) length
    obtain ⟨first, hfirst, hbegin⟩ := Option.map_eq_some_iff.1 (head?_split (h.valid s hs) length)
    cases hlast.symm.trans hp
    cases hfirst.symm.trans hq
    rw [hend, hbegin]
    exact hrs

/-! ## Limits -/

/-- With a value, the part holds every later value of the whole. -/
def KeepsLater (part whole : Set α) : Prop :=
  ∀ x ∈ part, ∀ y ∈ whole, Axis.rank x < Axis.rank y → y ∈ part

/-- Pieces of bounded length, from the newest end of a set of values downwards. -/
structure Newest (length : Nat) (pieces : List (Range α)) (whole : Set α) : Prop where
  valid : ∀ p ∈ pieces, p.valid = true
  short : ∀ p ∈ pieces, Axis.rank p.last - Axis.rank p.first < (max length 1 : Nat)
  descending : pieces.Pairwise fun p q => Below q p
  subset : values pieces ⊆ whole
  keepsLater : KeepsLater (values pieces) whole

omit [DiscreteAxis α] in
theorem Newest.separate {length : Nat} {pieces : List (Range α)} {whole : Set α} (h : Newest length pieces whole) :
    Separate pieces := by
  apply h.descending.imp
  intro p q hpq
  rw [overlaps_comm]
  exact hpq.overlaps_eq_false

omit [DiscreteAxis α] in
/-- The last few of ascending ranges hold with a value every later one. -/
theorem keepsLater_take_reverse {ranges : List (Range α)} (hb : ranges.Pairwise Below) (n : Nat) :
    KeepsLater (values (ranges.reverse.take n)) (values ranges) := by
  have hdown : ranges.reverse.Pairwise fun a b => Below b a := List.pairwise_reverse.2 hb
  rw [← List.take_append_drop n ranges.reverse] at hdown
  obtain ⟨-, -, hdrop⟩ := List.pairwise_append.1 hdown
  rintro x ⟨r, hr, hx⟩ y ⟨s, hs, hy⟩ hlt
  rw [← List.mem_reverse, ← List.take_append_drop n ranges.reverse, List.mem_append] at hs
  rcases hs with hs | hs
  · exact ⟨s, hs, hy⟩
  · have hbelow : Below s r := hdrop r hr s hs
    rw [mem_iff_rank] at hx hy
    unfold Below at hbelow
    omega

omit [DiscreteAxis α] in
theorem KeepsLater.greatest_mem {part whole : Set α} (h : KeepsLater part whole) (hsub : part ⊆ whole)
    (hne : part.Nonempty) {x : α} (hx : x ∈ whole) (htop : ∀ y ∈ whole, Axis.rank y ≤ Axis.rank x) : x ∈ part := by
  obtain ⟨y, hy⟩ := hne
  rcases Int.lt_or_eq_of_le (htop y (hsub hy)) with hlt | heq
  · exact h y hy x hx hlt
  · exact Axis.rank_inj _ _ heq ▸ hy

omit [DiscreteAxis α] in
/-- The last few of ascending ranges hold the greatest of their values. -/
theorem mem_values_take_reverse {ranges : List (Range α)} (hb : ranges.Pairwise Below)
    (hv : ∀ r ∈ ranges, r.valid = true) {x : α} (hx : x ∈ values ranges)
    (htop : ∀ y ∈ values ranges, Axis.rank y ≤ Axis.rank x) {n : Nat} (hn : 0 < n) :
    x ∈ values (ranges.reverse.take n) := by
  have hmem : ∀ r ∈ ranges.reverse.take n, r ∈ ranges := fun r hr => List.mem_reverse.1 (List.mem_of_mem_take hr)
  have hne : ranges.reverse.take n ≠ [] := by
    obtain ⟨r, hr, -⟩ := hx
    rw [Ne, List.take_eq_nil_iff, List.reverse_eq_nil_iff, not_or]
    exact ⟨Nat.ne_of_gt hn, List.ne_nil_of_mem hr⟩
  obtain ⟨r, hr⟩ := List.exists_mem_of_ne_nil _ hne
  have hfirst := first_mem (hv r (hmem r hr))
  exact (keepsLater_take_reverse hb n).greatest_mem (values_subset hmem) ⟨r.first, r, hr, hfirst⟩ hx htop

/-- The newest pieces of a merged list, from the last one back. -/
theorem Merged.takePieces_newestFirst {ranges : List (Range α)} (h : Merged ranges) (length limit : Nat) :
    takePieces ranges length limit .newestFirst = (splitAll ranges length).reverse.take limit := by
  have hs : (splitAll ranges length).Pairwise fun a b => a.precedes b = true := by
    refine (below_splitAll h.below length).imp_of_mem ?_
    intro a b ha hb hab
    have hv := (mem_splitAll ha).1
    have hw := (mem_splitAll hb).1
    rw [valid_iff_rank] at hv hw
    rw [precedes_iff_rank]
    unfold Below at hab
    omega
  simp only [takePieces, List.mergeSort_of_pairwise hs]

theorem values_takePieces_subset (ranges : List (Range α)) (length limit : Nat) (order : Order) :
    values (takePieces ranges length limit order) ⊆ values ranges := by
  rw [← values_splitAll ranges length]
  exact values_subset fun _ => mem_takePieces

namespace Merged

variable {ranges : List (Range α)} {length limit : Nat}

theorem newest_takePieces (h : Merged ranges) (length limit : Nat) :
    Newest length (takePieces ranges length limit .newestFirst) (values ranges) where
  valid := fun _ hp => (mem_splitAll (mem_takePieces hp)).1
  short := fun _ hp => (mem_splitAll (mem_takePieces hp)).2
  descending := by
    rw [h.takePieces_newestFirst]
    exact (List.pairwise_reverse.2 (below_splitAll h.below length)).take
  subset := values_takePieces_subset ranges length limit .newestFirst
  keepsLater := by
    rw [h.takePieces_newestFirst, ← values_splitAll ranges length]
    exact keepsLater_take_reverse (below_splitAll h.below length) limit

theorem separate_takePieces (h : Merged ranges) (length limit : Nat) :
    Separate (takePieces ranges length limit .newestFirst) :=
  (h.newest_takePieces length limit).separate

theorem values_takePieces_of_length_le (h : Merged ranges) (hlength : (splitAll ranges length).length ≤ limit) :
    values (takePieces ranges length limit .newestFirst) = values ranges := by
  rw [h.takePieces_newestFirst, List.take_of_length_le (by rw [List.length_reverse]; exact hlength),
    values_perm (List.reverse_perm _), values_splitAll]

/-- When the limit leaves room, nothing was cut off. -/
theorem values_takePieces_of_room (h : Merged ranges)
    (hroom : (takePieces ranges length limit .newestFirst).length < limit) :
    values (takePieces ranges length limit .newestFirst) = values ranges := by
  apply h.values_takePieces_of_length_le
  rw [h.takePieces_newestFirst, List.length_take, List.length_reverse] at hroom
  omega

/-- With a limit of at least the number of values, pieces of a merged list keep every value. -/
theorem values_takePieces [Finite α] (h : Merged ranges) (hlimit : (values ranges).ncard ≤ limit) :
    values (takePieces ranges length limit .newestFirst) = values ranges := by
  have hcount := length_le_ncard (fun p hp => (mem_splitAll hp).1) (separate_splitAll h.separate length)
  rw [values_splitAll] at hcount
  exact h.values_takePieces_of_length_le (hcount.trans hlimit)

theorem takePieces_nonempty (h : Merged ranges) (length : Nat) (hlimit : 1 ≤ limit) (hne : (values ranges).Nonempty) :
    (values (takePieces ranges length limit .newestFirst)).Nonempty := by
  cases hpieces : takePieces ranges length limit .newestFirst with
  | nil =>
      rw [← hpieces, h.values_takePieces_of_room (by rw [hpieces]; exact hlimit)]
      exact hne
  | cons p rest =>
      have hvalid := (h.newest_takePieces length limit).valid
      rw [hpieces] at hvalid
      exact ⟨p.first, p, List.mem_cons_self, first_mem (hvalid p List.mem_cons_self)⟩

end Merged

end Backfill.Range
