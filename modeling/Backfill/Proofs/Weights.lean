import Backfill.Weights
import Mathlib.Data.List.Perm.Basic

/-!
# Splits keep every item

Branches laid out by weights follow one another on the points, so a later item of a list never goes to an
earlier branch. A split therefore cuts a list into runs: put together again in the order of the branches,
the shares are the list. Weights stay valid when branches are left out.
-/

namespace Backfill.Branches

variable {κ τ : Type}

/-! ## Laying out -/

/-- The ranges that weights get from a point on. -/
inductive Laid : Nat → List (κ × UInt64) → List (κ × Range UInt64) → Prop
  | nil {next : Nat} : Laid next [] []
  | cons {next : Nat} {key : κ} {weight : UInt64} {rest : List (κ × UInt64)} {laid : List (κ × Range UInt64)} :
    weight ≠ 0 → next + (weight.toNat - 1) ≤ maxWord →
    Laid (min (next + (weight.toNat - 1) + 1) maxWord) rest laid →
    Laid next ((key, weight) :: rest) ((key, ⟨next.toUInt64, (next + (weight.toNat - 1)).toUInt64⟩) :: laid)

theorem laid_of_layOut {index next : Nat} {weights : List (κ × UInt64)} {laid : List (κ × Range UInt64)}
    (h : layOut index next weights = .ok laid) : Laid next weights laid := by
  induction weights generalizing index next laid with
  | nil =>
      cases h
      exact .nil
  | cons branch rest ih =>
      obtain ⟨key, weight⟩ := branch
      rw [layOut] at h
      by_cases hzero : weight = 0
      · rw [if_pos hzero] at h
        cases h
      · rw [if_neg hzero] at h
        by_cases hover : maxWord < next + (weight.toNat - 1)
        · simp only [if_pos hover] at h
          cases h
        · simp only [if_neg hover] at h
          cases hrest : layOut (index + 1) (min (next + (weight.toNat - 1) + 1) maxWord) rest with
          | error e =>
              rw [hrest] at h
              cases h
          | ok more =>
              rw [hrest] at h
              cases h
              exact .cons hzero (Nat.le_of_not_lt hover) (ih hrest)

theorem Laid.layOut_eq {next : Nat} {weights : List (κ × UInt64)} {laid : List (κ × Range UInt64)}
    (h : Laid next weights laid) (index : Nat) : layOut index next weights = .ok laid := by
  induction h generalizing index with
  | nil => rfl
  | cons hzero hfits _ ih =>
      rw [layOut, if_neg hzero]
      simp only [if_neg (Nat.not_lt.2 hfits)]
      simp only [ih]
      rfl

section Laid

variable {next : Nat} {weights : List (κ × UInt64)} {laid : List (κ × Range UInt64)}

theorem Laid.keys_eq (h : Laid next weights laid) : laid.map (·.1) = weights.map (·.1) := by
  induction h with
  | nil => rfl
  | cons _ _ _ ih => rw [List.map_cons, List.map_cons, ih]

theorem toNat_toUInt64 {n : Nat} (h : n ≤ maxWord) : n.toUInt64.toNat = n := by
  rw [Nat.toUInt64, UInt64.toNat_ofNat']
  exact Nat.mod_eq_of_lt (by rw [maxWord] at h; omega)

theorem Laid.checkTiles_eq (h : Laid next weights laid) (hnext : next ≤ maxWord) (index : Nat) :
    checkTiles index next laid = .ok () := by
  induction h generalizing index with
  | nil => rfl
  | @cons next key weight rest laid _ hfits _ ih =>
      have hvalid : (⟨next.toUInt64, (next + (weight.toNat - 1)).toUInt64⟩ : Range UInt64).valid = true := by
        rw [Range.valid, decide_eq_true_eq, UInt64.le_iff_toNat_le]
        simp only [toNat_toUInt64 hnext, toNat_toUInt64 hfits]
        omega
      rw [checkTiles]
      simp only [hvalid, toNat_toUInt64 hnext, toNat_toUInt64 hfits, ih (Nat.min_le_right ..)]
      simp

/-- Weights that fit still fit when some of them are left out. -/
theorem Laid.sublist (h : Laid next weights laid) {fewer : List (κ × UInt64)} (hsub : fewer.Sublist weights)
    {before : Nat} (hbefore : before ≤ next) : ∃ laid', Laid before fewer laid' := by
  induction h generalizing before fewer with
  | nil =>
      rw [List.sublist_nil.1 hsub]
      exact ⟨[], .nil⟩
  | @cons next key weight rest laid hzero hfits _ ih =>
      cases hsub with
      | cons _ hsub => exact ih hsub (by omega)
      | cons_cons _ hsub =>
          have hlater : min (before + (weight.toNat - 1) + 1) maxWord ≤
              min (next + (weight.toNat - 1) + 1) maxWord := by omega
          obtain ⟨laid', hlaid⟩ := ih hsub hlater
          exact ⟨_, .cons hzero (by omega) hlaid⟩

theorem Laid.ofWeights_eq (h : Laid 1 weights laid) : ofWeights weights =
    match laid.getLast? with
    | none => .error (.invalidWeights "no branch configured")
    | some (_, range) => .ok ⟨laid, range.last⟩ := by
  rw [ofWeights, h.layOut_eq]
  simp only [bind, Except.bind, ofRanges, h.checkTiles_eq (by decide)]
  rfl

theorem laid_of_ofWeights {b : Branches κ} (h : ofWeights weights = .ok b) :
    Laid 1 weights b.branches ∧ b.branches ≠ [] := by
  cases hlaid : layOut 0 1 weights with
  | error e =>
      rw [ofWeights, hlaid] at h
      cases h
  | ok laid =>
      have hl := laid_of_layOut hlaid
      rw [hl.ofWeights_eq] at h
      split at h
      · cases h
      · rename_i last hlast
        cases h
        refine ⟨hl, ?_⟩
        rintro rfl
        cases hlast

theorem Laid.exists_ofWeights (h : Laid 1 weights laid) (hne : weights ≠ []) : ∃ b, ofWeights weights = .ok b := by
  rw [h.ofWeights_eq]
  cases hlast : laid.getLast? with
  | none =>
      have hkeys := h.keys_eq
      rw [List.getLast?_eq_none_iff.1 hlast, List.map_nil, eq_comm, List.map_eq_nil_iff] at hkeys
      exact absurd hkeys hne
  | some last => exact ⟨_, rfl⟩

end Laid

/-- What was laid out keeps the keys, and there is something to lay out. -/
theorem keys_of_ofWeights {weights : List (κ × UInt64)} {b : Branches κ} (h : ofWeights weights = .ok b) :
    b.branches.map (·.1) = weights.map (·.1) ∧ b.branches ≠ [] :=
  ⟨(laid_of_ofWeights h).1.keys_eq, (laid_of_ofWeights h).2⟩

theorem exists_ofWeights_of_sublist {weights fewer : List (κ × UInt64)} {b : Branches κ}
    (h : ofWeights weights = .ok b) (hsub : fewer.Sublist weights) (hne : fewer ≠ []) :
    ∃ b', ofWeights fewer = .ok b' := by
  obtain ⟨laid, hlaid⟩ := (laid_of_ofWeights h).1.sublist hsub (Nat.le_refl 1)
  exact hlaid.exists_ofWeights hne

/-! ## Places -/

section Places

variable {b : Branches κ}

theorem placeOf_lt (h : b.branches ≠ []) (point : UInt64) : b.placeOf point < b.branches.length := by
  have hpos := List.length_pos_iff.2 h
  rw [placeOf]
  omega

theorem placeOf_mono {p q : UInt64} (h : p ≤ q) : b.placeOf p ≤ b.placeOf q := by
  have hle : (b.branches.findIdx fun branch => decide (p ≤ branch.2.last)) ≤
      b.branches.findIdx fun branch => decide (q ≤ branch.2.last) := by
    apply List.findIdx_le_findIdx
    intro branch _ hq
    simp only [decide_eq_true_eq] at hq ⊢
    exact UInt64.le_trans h hq
  exact Nat.le_min.2 ⟨Nat.le_trans (Nat.min_le_left ..) hle, Nat.min_le_right ..⟩

theorem toNat_pointOf {position count : Nat} (h : position < count) :
    (b.pointOf position count).toNat = position * b.total.toNat / count + 1 := by
  have htotal := b.total.toNat_lt
  have hpoint : position * b.total.toNat / count < 2 ^ 64 - 1 := by
    rw [Nat.div_lt_iff_lt_mul (by omega), Nat.mul_comm]
    calc b.total.toNat * position ≤ (2 ^ 64 - 1) * position := Nat.mul_le_mul_right _ (by omega)
      _ < (2 ^ 64 - 1) * count := Nat.mul_lt_mul_of_pos_left h (by decide)
  rw [pointOf, Nat.toUInt64, UInt64.toNat_ofNat']
  exact Nat.mod_eq_of_lt (by omega)

theorem pointOf_mono {i j count : Nat} (hij : i ≤ j) (hj : j < count) : b.pointOf i count ≤ b.pointOf j count := by
  rw [UInt64.le_iff_toNat_le, toNat_pointOf (by omega), toNat_pointOf hj]
  exact Nat.add_le_add_right (Nat.div_le_div_right (Nat.mul_le_mul_right _ hij)) 1

end Places

/-! ## Splitting -/

section Runs

variable {xs : List (Nat × τ)} {n : Nat}

theorem filter_append_filter_of_ascending (hasc : xs.Pairwise fun x y => x.1 ≤ y.1) (hle : ∀ x ∈ xs, x.1 ≤ n) :
    xs.filter (fun x => decide (x.1 < n)) ++ xs.filter (·.1 == n) = xs := by
  induction xs with
  | nil => rfl
  | cons x xs ih =>
      obtain ⟨hx, hasc⟩ := List.pairwise_cons.1 hasc
      rcases Nat.lt_or_eq_of_le (hle x List.mem_cons_self) with hlt | heq
      · rw [List.filter_cons_of_pos (by simpa using hlt), List.filter_cons_of_neg (by simpa using Nat.ne_of_lt hlt),
          List.cons_append, ih hasc fun y hy => hle y (List.mem_cons_of_mem _ hy)]
      · -- the first one is the last number already
        have hall : ∀ y ∈ x :: xs, y.1 = n := by
          refine List.forall_mem_cons.2 ⟨heq, ?_⟩
          intro y hy
          exact Nat.le_antisymm (hle y (List.mem_cons_of_mem _ hy)) (heq ▸ hx y hy)
        rw [List.filter_eq_nil_iff.2 fun y hy => by simp [hall y hy],
          List.filter_eq_self.2 fun y hy => by simp [hall y hy], List.nil_append]

/-- Ascending numbers cut a list into runs. -/
theorem flatMap_filter_range (hasc : xs.Pairwise fun x y => x.1 ≤ y.1) (hlt : ∀ x ∈ xs, x.1 < n) :
    (List.range n).flatMap (fun i => xs.filter (·.1 == i)) = xs := by
  induction n generalizing xs with
  | zero =>
      cases xs with
      | nil => rfl
      | cons x xs => exact absurd (hlt x List.mem_cons_self) (Nat.not_lt_zero _)
  | succ n ih =>
      have hbelow : (List.range n).flatMap (fun i => xs.filter (·.1 == i)) =
          xs.filter (fun x => decide (x.1 < n)) := by
        rw [← ih (hasc.filter _) (by simp)]
        refine List.flatMap_congr fun i hi => ?_
        rw [List.filter_filter]
        refine List.filter_congr fun x _ => ?_
        rw [List.mem_range] at hi
        by_cases hxi : x.1 = i
        · simp [hxi, hi]
        · simp [hxi]
      rw [List.range_succ, List.flatMap_append, List.flatMap_singleton, hbelow,
        filter_append_filter_of_ascending hasc fun x hx => Nat.le_of_lt_succ (hlt x hx)]

end Runs

section Split

variable {b : Branches κ} {items : List τ}

/-- The items of a split with the places of the branches that they go to. -/
def placed (b : Branches κ) (items : List τ) : List (Nat × τ) :=
  items.zipIdx.map fun (item, position) => (b.placeOf (b.pointOf position items.length), item)

theorem split_eq (b : Branches κ) (items : List τ) : b.split items =
    b.branches.zipIdx.map fun ((key, _), place) => (key, ((b.placed items).filter (·.1 == place)).map (·.2)) := rfl

theorem ascending_placed (b : Branches κ) (items : List τ) : (b.placed items).Pairwise fun x y => x.1 ≤ y.1 := by
  have hpositions : items.zipIdx.Pairwise fun x y => x.2 < y.2 := by
    rw [← List.pairwise_map, List.zipIdx_map_snd]
    exact List.pairwise_lt_range'
  rw [placed, List.pairwise_map]
  refine hpositions.imp_of_mem ?_
  rintro ⟨x, i⟩ ⟨y, j⟩ - hy hij
  have hj : j < items.length := (List.getElem?_eq_some_iff.1 (List.mk_mem_zipIdx_iff_getElem?.1 hy)).1
  exact placeOf_mono (pointOf_mono (Nat.le_of_lt hij) hj)

theorem lt_of_mem_placed (h : b.branches ≠ []) : ∀ x ∈ b.placed items, x.1 < b.branches.length := by
  intro x hx
  obtain ⟨⟨item, position⟩, -, rfl⟩ := List.mem_map.1 hx
  exact placeOf_lt h _

theorem map_placed_snd (b : Branches κ) (items : List τ) : (b.placed items).map (·.2) = items := by
  rw [placed, List.map_map]
  exact List.zipIdx_map_fst 0 items

theorem map_split_fst (b : Branches κ) (items : List τ) : (b.split items).map (·.1) = b.branches.map (·.1) := by
  rw [split_eq, List.map_map, ← List.zipIdx_map_fst 0 b.branches, List.map_map, List.zipIdx_map_fst]
  rfl

/-- The shares in the order of the branches are the list. -/
theorem flatMap_split (h : b.branches ≠ []) (items : List τ) : (b.split items).flatMap (·.2) = items := by
  have hruns := flatMap_filter_range (ascending_placed b items) (lt_of_mem_placed h)
  calc (b.split items).flatMap (·.2)
      = (b.branches.zipIdx.map (·.2)).flatMap fun i => ((b.placed items).filter (·.1 == i)).map (·.2) := by
        rw [split_eq, List.flatMap_map, List.flatMap_map]
    _ = ((List.range b.branches.length).flatMap fun i => (b.placed items).filter (·.1 == i)).map (·.2) := by
        rw [List.zipIdx_map_snd, List.map_flatMap, List.range_eq_range']
    _ = items := by rw [hruns, map_placed_snd]

end Split

end Backfill.Branches
