import Backfill.Proofs.Weights.Owners
import Mathlib.Algebra.Order.Group.Abs
import Mathlib.Algebra.Order.Group.Int
import Mathlib.Data.Nat.Count

/-!
# Portions of a split

Items sit at even distances on the points, so as many of them come before a point as its part of the total, rounded
up. The portion of a branch is what comes between its two ends, and differs from its part of the list by less than
one item. Positions and points stay below the bounds of the words that they are computed in.
-/

namespace Backfill.Branches

variable {κ τ : Type}

/-! ## Items before a point -/

section Ceilings

variable {t : Nat}

theorem le_mul_ceilDiv (ht : 0 < t) (a : Nat) : a ≤ t * (a ⌈/⌉ t) := (ceilDiv_le_iff_le_mul ht).1 le_rfl

theorem mul_ceilDiv_lt (ht : 0 < t) (a : Nat) : t * (a ⌈/⌉ t) < a + t := by
  cases h : a ⌈/⌉ t with
  | zero => omega
  | succ c =>
      have hc : t * c < a := by
        rw [← Nat.not_le, ← ceilDiv_le_iff_le_mul ht]
        omega
      rw [Nat.mul_succ]
      omega

theorem ceilDiv_mono (ht : 0 < t) {a b : Nat} (h : a ≤ b) : a ⌈/⌉ t ≤ b ⌈/⌉ t :=
  (ceilDiv_le_iff_le_mul ht).2 (h.trans (le_mul_ceilDiv ht b))

theorem count_between {lo hi n : Nat} (hn : hi ≤ n) : Nat.count (fun i => lo ≤ i ∧ i < hi) n = hi - lo := by
  rw [Nat.count_eq_card_filter_range, ← Nat.card_Ico]
  congr 1
  ext i
  rw [Finset.mem_filter, Finset.mem_range, Finset.mem_Ico]
  omega

end Ceilings

section Split

variable {weights : List (κ × UInt64)} {b : Branches κ} {items : List τ} {place : Nat}

theorem length_share (b : Branches κ) (items : List τ) (place : Nat) :
    ((b.placed items).filter (·.1 == place)).length =
      Nat.count (fun position => b.placeOf (b.pointOf position items.length) = place) items.length := by
  rw [← List.countP_eq_length_filter, placed, List.countP_map, Nat.count, List.range_eq_range',
    ← List.zipIdx_map_snd 0 items, List.countP_map]
  rfl

theorem toNat_pointOf_le (b : Branches κ) {position count : Nat} (h : position < count) (htotal : 0 < b.total.toNat) :
    position * b.total.toNat / count + 1 ≤ b.total.toNat := by
  rw [Nat.succ_le_iff, Nat.div_lt_iff_lt_mul (Nat.zero_lt_of_lt h), Nat.mul_comm]
  exact Nat.mul_lt_mul_of_pos_left h htotal

theorem LaidOut.placeOf_pointOf_iff (h : LaidOut weights b) {position count : Nat} (hlt : position < count) :
    b.placeOf (b.pointOf position count) = place ↔
      pointsBefore weights place * count ≤ sumOf weights * position ∧
      sumOf weights * position < pointsBefore weights (place + 1) * count := by
  have hcount := Nat.zero_lt_of_lt hlt
  have hpoint : (b.pointOf position count).toNat = position * b.total.toNat / count + 1 := toNat_pointOf hlt
  have hle := toNat_pointOf_le b hlt h.total_pos
  rw [← hpoint] at hle
  rw [h.placeOf_eq_iff_between (hpoint ▸ Nat.succ_pos _) hle, hpoint, Nat.lt_succ_iff,
    Nat.le_div_iff_mul_le hcount, Nat.succ_le_iff, Nat.div_lt_iff_lt_mul hcount, h.total,
    Nat.mul_comm position]

/-- How many of `count` items come before the end of the first so many points. -/
def itemsUpTo (total count points : Nat) : Nat := (points * count) ⌈/⌉ total

theorem LaidOut.length_share_eq (h : LaidOut weights b) (items : List τ) (place : Nat) :
    ((b.placed items).filter (·.1 == place)).length =
      itemsUpTo (sumOf weights) items.length (pointsBefore weights (place + 1)) -
        itemsUpTo (sumOf weights) items.length (pointsBefore weights place) := by
  have htotal : 0 < sumOf weights := h.total ▸ h.total_pos
  have hend : itemsUpTo (sumOf weights) items.length (pointsBefore weights (place + 1)) ≤ items.length := by
    rw [itemsUpTo, ceilDiv_le_iff_le_mul htotal]
    exact Nat.mul_le_mul_right _ (pointsBefore_le weights (place + 1))
  rw [length_share, ← count_between hend, Nat.count_eq_card_filter_range, Nat.count_eq_card_filter_range]
  congr 1
  refine Finset.filter_congr fun position hposition => ?_
  rw [h.placeOf_pointOf_iff (Finset.mem_range.1 hposition), mul_between_iff htotal, itemsUpTo, itemsUpTo]

/-- A portion is the part of the list that the weight is of the sum, up to less than one item. -/
theorem LaidOut.abs_share_sub_lt (h : LaidOut weights b) (items : List τ) {key : κ} {weight : UInt64}
    (hplace : weights[place]? = some (key, weight)) :
    |(((b.placed items).filter (·.1 == place)).length : Int) * sumOf weights - items.length * weight.toNat| <
      sumOf weights := by
  have htotal : 0 < sumOf weights := h.total ▸ h.total_pos
  have hends : pointsBefore weights (place + 1) * items.length =
      pointsBefore weights place * items.length + items.length * weight.toNat := by
    rw [pointsBefore_succ hplace, Nat.add_mul, Nat.mul_comm weight.toNat]
  have hstart := le_mul_ceilDiv htotal (pointsBefore weights place * items.length)
  have hstart' := mul_ceilDiv_lt htotal (pointsBefore weights place * items.length)
  have hend := le_mul_ceilDiv htotal (pointsBefore weights (place + 1) * items.length)
  have hend' := mul_ceilDiv_lt htotal (pointsBefore weights (place + 1) * items.length)
  have hmono := ceilDiv_mono htotal
    (Nat.mul_le_mul_right items.length (pointsBefore_mono weights (Nat.le_succ place)))
  have hshare : ((b.placed items).filter (·.1 == place)).length * sumOf weights +
      sumOf weights * (pointsBefore weights place * items.length ⌈/⌉ sumOf weights) =
      sumOf weights * (pointsBefore weights (place + 1) * items.length ⌈/⌉ sumOf weights) := by
    rw [h.length_share_eq, itemsUpTo, itemsUpTo, Nat.mul_comm _ (sumOf weights), ← Nat.mul_add,
      Nat.sub_add_cancel hmono]
  rw [abs_sub_lt_iff, ← Nat.cast_mul, ← Nat.cast_mul]
  omega

theorem getElem?_split (b : Branches κ) (items : List τ) {key : κ} {r : Range UInt64}
    (hr : b.branches[place]? = some (key, r)) :
    (b.split items)[place]? = some (key, ((b.placed items).filter (·.1 == place)).map (·.2)) := by
  rw [split_eq, List.getElem?_map, List.getElem?_zipIdx, hr, Nat.zero_add]
  rfl

end Split

/-! ## Portions -/

/-- A list is split by weights: the shares in the order of the weights make up the list, and each is the part of it
that its weight is of the sum, up to less than one item. Words of 128 digits hold the products and words of 64 digits
the points. -/
structure Portioned (weights : List (κ × UInt64)) (b : Branches κ) (items : List τ) : Prop where
  keys : (b.split items).map (·.1) = weights.map (·.1)
  joined : (b.split items).flatMap (·.2) = items
  portion : ∀ (place : Nat) (key : κ) (weight : UInt64), weights[place]? = some (key, weight) →
    ∃ share : List τ, (b.split items)[place]? = some (key, share) ∧
      |(share.length : Int) * sumOf weights - items.length * weight.toNat| < sumOf weights
  product_lt : items.length ≤ 2 ^ 64 → ∀ position < items.length, position * b.total.toNat < 2 ^ 128
  point_le : ∀ position < items.length,
    (b.pointOf position items.length).toNat = position * b.total.toNat / items.length + 1 ∧
    position * b.total.toNat / items.length + 1 ≤ b.total.toNat

/-- Whatever usable weights are laid out, they split every list in proportion. -/
theorem split_in_proportion {weights : List (κ × UInt64)} (h : Usable weights) :
    ∃ b, ofWeights weights = .ok b ∧ ∀ items : List τ, Portioned weights b items := by
  obtain ⟨b, hb, hlaid⟩ := h.exists_laidOut
  refine ⟨b, hb, fun items => ⟨?_, flatMap_split hlaid.branches_ne_nil items, ?_, ?_, ?_⟩⟩
  · rw [map_split_fst, hlaid.keys]
  · intro place key weight hplace
    obtain ⟨r, hr, -⟩ := hlaid.range place key weight hplace
    refine ⟨_, getElem?_split b items hr, ?_⟩
    rw [List.length_map]
    exact hlaid.abs_share_sub_lt items hplace
  · intro hcount position hposition
    calc position * b.total.toNat < 2 ^ 64 * 2 ^ 64 :=
          Nat.mul_lt_mul'' (Nat.lt_of_lt_of_le hposition hcount) b.total.toNat_lt
      _ = 2 ^ 128 := by rw [← Nat.pow_add]
  · intro position hposition
    exact ⟨toNat_pointOf hposition, toNat_pointOf_le b hposition hlaid.total_pos⟩

/-- Of eight items a branch of three quarters of the weight gets six. -/
theorem split_in_proportion_eightItems : Usable [("fast", 3), ("slow", 1)] ∧
    ∃ b, ofWeights [("fast", 3), ("slow", 1)] = .ok b ∧
      ∃ share, (b.split [0, 1, 2, 3, 4, 5, 6, 7])[0]? = some ("fast", share) ∧ share.length = 6 := by
  have husable : Usable [("fast", 3), ("slow", 1)] := ⟨by decide, by decide, by decide⟩
  obtain ⟨b, hb, hsplit⟩ := split_in_proportion husable
  obtain ⟨share, hshare, hportion⟩ := (hsplit [0, 1, 2, 3, 4, 5, 6, 7]).portion 0 "fast" 3 rfl
  refine ⟨husable, b, hb, share, hshare, ?_⟩
  have hcount : |(share.length : Int) * 4 - 8 * 3| < 4 := hportion
  rw [abs_lt] at hcount
  omega

end Backfill.Branches
