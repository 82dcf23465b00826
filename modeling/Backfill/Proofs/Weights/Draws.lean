import Backfill.Proofs.Weights
import Backfill.Proofs.Range.Count
import Mathlib.Algebra.Order.Floor.Div
import Mathlib.Data.Set.Card

/-!
# Draws are even

A word draws a point by its product with the total: the high half names the point, and words whose low half lies in
the incomplete last stretch are skipped. The products of all words are the multiples of the total below the square of
a word's range, so each point is left with the multiples in a stretch of one length, and every point is drawn by
equally many words.
-/

namespace Backfill.Branches

/-! ## Multiples -/

section Multiples

variable {t : Nat}

/-- Which multiples of `t` lie between two bounds. -/
theorem mul_between_iff (ht : 0 < t) (a b n : Nat) : a ≤ t * n ∧ t * n < b ↔ a ⌈/⌉ t ≤ n ∧ n < b ⌈/⌉ t := by
  rw [ceilDiv_le_iff_le_mul ht, ← not_le (a := b ⌈/⌉ t), ceilDiv_le_iff_le_mul ht, not_le]

theorem add_mul_ceilDiv (ht : 0 < t) (a m : Nat) : (a + t * m) ⌈/⌉ t = a ⌈/⌉ t + m := by
  rw [Nat.ceilDiv_eq_add_pred_div, Nat.ceilDiv_eq_add_pred_div, ← Nat.add_mul_div_left _ _ ht]
  congr 1
  omega

end Multiples

/-! ## Words and points -/

/-- How many words draw one point. -/
def wordsPerPoint (total : UInt64) : Nat := 2 ^ (63 - total.toNat.log2)

section Draws

variable {total word point : UInt64} {words : List UInt64}

theorem wordsPerPoint_pos (total : UInt64) : 0 < wordsPerPoint total := Nat.two_pow_pos _

theorem mul_wordsPerPoint_lt (h : 0 < total.toNat) : total.toNat * wordsPerPoint total < 2 ^ 64 := by
  have hlog : total.toNat.log2 < 64 := (Nat.log2_lt (Nat.ne_of_gt h)).2 total.toNat_lt
  calc total.toNat * wordsPerPoint total
      < 2 ^ (total.toNat.log2 + 1) * 2 ^ (63 - total.toNat.log2) :=
        Nat.mul_lt_mul_of_pos_right Nat.lt_log2_self (Nat.two_pow_pos _)
    _ = 2 ^ 64 := by
        rw [← Nat.pow_add]
        congr 1
        omega

theorem draw_cons (h : 0 < total.toNat) : draw total (word :: words) =
    if word.toNat * total.toNat % 2 ^ 64 < total.toNat * wordsPerPoint total then
      ((1 + word.toNat * total.toNat / 2 ^ 64).toUInt64, words)
    else draw total words := by
  have hlt := mul_wordsPerPoint_lt h
  have hpos : 0 < total.toNat * wordsPerPoint total := Nat.mul_pos h (wordsPerPoint_pos total)
  have hzone : (total.toNat * wordsPerPoint total + maxWord) % 2 ^ 64 = total.toNat * wordsPerPoint total - 1 := by
    rw [maxWord]
    omega
  have hskip : (total.toNat * Nat.pow 2 (63 - total.toNat.log2) + maxWord) % Nat.pow 2 64 =
      total.toNat * wordsPerPoint total - 1 := hzone
  rw [draw, hskip]
  by_cases hword : word.toNat * total.toNat % 2 ^ 64 < total.toNat * wordsPerPoint total
  · rw [if_pos hword]
    exact if_pos (Nat.le_sub_one_of_lt hword)
  · rw [if_neg hword]
    refine if_neg fun hle => hword ?_
    exact Nat.lt_of_le_sub_one hpos hle

/-- The word 0 is never skipped. -/
theorem draw_zero (h : 0 < total.toNat) : draw total (0 :: words) = (1, words) := by
  rw [draw_cons h, UInt64.toNat_zero, Nat.zero_mul, Nat.zero_mod, if_pos (Nat.mul_pos h (wordsPerPoint_pos total))]
  rfl

theorem high_lt (h : 0 < total.toNat) (word : UInt64) : word.toNat * total.toNat / 2 ^ 64 < total.toNat := by
  rw [Nat.div_lt_iff_lt_mul (Nat.two_pow_pos _), Nat.mul_comm total.toNat]
  exact Nat.mul_lt_mul_of_pos_right word.toNat_lt h

theorem toNat_drawn (h : 0 < total.toNat) :
    (1 + word.toNat * total.toNat / 2 ^ 64).toUInt64.toNat = 1 + word.toNat * total.toNat / 2 ^ 64 := by
  have hhigh := high_lt h word
  have htotal := total.toNat_lt
  exact toNat_toUInt64 (by rw [maxWord]; omega)

theorem draw_mem (h : 0 < total.toNat) (words : List UInt64) :
    0 < (draw total words).1.toNat ∧ (draw total words).1.toNat ≤ total.toNat := by
  induction words with
  | nil => exact ⟨Nat.one_pos, h⟩
  | cons word words ih =>
      rw [draw_cons h]
      split
      · have hhigh := high_lt h word
        rw [toNat_drawn h]
        omega
      · exact ih

/-- A word draws a point whatever comes after it when its product lies in the stretch of the point. -/
theorem draws_iff (h : 0 < total.toNat) : (∀ words, draw total (word :: words) = (point, words)) ↔
    word.toNat * total.toNat % 2 ^ 64 < total.toNat * wordsPerPoint total ∧
    1 + word.toNat * total.toNat / 2 ^ 64 = point.toNat := by
  simp only [draw_cons h]
  split
  · rename_i hlow
    simp only [Prod.mk.injEq, and_true, forall_const, hlow, true_and, ← UInt64.toNat_inj, toNat_drawn h]
  · rename_i hlow
    refine ⟨fun hskip => ?_, fun hdraw => absurd hdraw.1 hlow⟩
    have hzero := hskip [0]
    rw [draw_zero h] at hzero
    cases hzero

theorem draws_or_skips (h : 0 < total.toNat) (word : UInt64) :
    (∃ point, ∀ words, draw total (word :: words) = (point, words)) ∨
    ∀ words, draw total (word :: words) = draw total words := by
  simp only [draw_cons h]
  split
  · exact .inl ⟨_, fun _ => rfl⟩
  · exact .inr fun _ => rfl

/-- The first word of those that draw a point. -/
def firstWord (total point : UInt64) : Nat := ((point.toNat - 1) * 2 ^ 64) ⌈/⌉ total.toNat

theorem firstWord_add_le (hpos : 0 < point.toNat) (hle : point.toNat ≤ total.toNat) :
    firstWord total point + wordsPerPoint total ≤ 2 ^ 64 := by
  have h : 0 < total.toNat := Nat.lt_of_lt_of_le hpos hle
  have hlt := mul_wordsPerPoint_lt h
  rw [firstWord, ← add_mul_ceilDiv h, ceilDiv_le_iff_le_mul h]
  calc (point.toNat - 1) * 2 ^ 64 + total.toNat * wordsPerPoint total ≤ point.toNat * 2 ^ 64 := by omega
    _ ≤ total.toNat * 2 ^ 64 := Nat.mul_le_mul_right _ hle

theorem draws_iff_between (hpos : 0 < point.toNat) (hle : point.toNat ≤ total.toNat) :
    (∀ words, draw total (word :: words) = (point, words)) ↔
      firstWord total point ≤ word.toNat ∧ word.toNat < firstWord total point + wordsPerPoint total := by
  have h : 0 < total.toNat := Nat.lt_of_lt_of_le hpos hle
  have hlt := mul_wordsPerPoint_lt h
  rw [draws_iff h, firstWord, ← add_mul_ceilDiv h, ← mul_between_iff h, Nat.mul_comm total.toNat word.toNat]
  omega

/-- Every point is drawn by equally many words. -/
theorem ncard_draws (hpos : 0 < point.toNat) (hle : point.toNat ≤ total.toNat) :
    {word | ∀ words, draw total (word :: words) = (point, words)}.ncard = wordsPerPoint total := by
  have hend := firstWord_add_le hpos hle
  have hm := wordsPerPoint_pos total
  have hfirst := toNat_toUInt64 (n := firstWord total point) (by rw [maxWord]; omega)
  have hlast := toNat_toUInt64 (n := firstWord total point + wordsPerPoint total - 1) (by rw [maxWord]; omega)
  have hrange : {word | ∀ words, draw total (word :: words) = (point, words)} =
      {word | word ∈ (⟨(firstWord total point).toUInt64,
        (firstWord total point + wordsPerPoint total - 1).toUInt64⟩ : Range UInt64)} := by
    ext word
    rw [Set.mem_ofPred_eq, Set.mem_ofPred_eq, draws_iff_between hpos hle, Range.mem_iff, UInt64.le_iff_toNat_le,
      UInt64.le_iff_toNat_le, hfirst, hlast]
    omega
  rw [hrange, Range.ncard_blocks, hfirst, hlast]
  omega

theorem ncard_draws_of_points {points : Set UInt64}
    (h : ∀ point ∈ points, 0 < point.toNat ∧ point.toNat ≤ total.toNat) :
    {word | ∃ point ∈ points, ∀ words, draw total (word :: words) = (point, words)}.ncard =
      points.ncard * wordsPerPoint total := by
  induction points, Set.toFinite points using Set.Finite.induction_on with
  | empty => simp
  | @insert point points hnew hfinite ih =>
      obtain ⟨⟨hpos, hle⟩, hpoints⟩ := Set.forall_mem_insert.1 h
      have hunion : {word | ∃ p ∈ insert point points, ∀ words, draw total (word :: words) = (p, words)} =
          {word | ∀ words, draw total (word :: words) = (point, words)} ∪
            {word | ∃ p ∈ points, ∀ words, draw total (word :: words) = (p, words)} := by
        ext word
        simp only [Set.mem_insert_iff, Set.mem_ofPred_eq, Set.mem_union, exists_eq_or_imp]
      have hdisjoint : Disjoint {word | ∀ words, draw total (word :: words) = (point, words)}
          {word | ∃ p ∈ points, ∀ words, draw total (word :: words) = (p, words)} := by
        rw [Set.disjoint_left]
        rintro word hpoint ⟨p, hp, hdraw⟩
        obtain ⟨rfl, -⟩ := Prod.mk.inj ((hpoint []).symm.trans (hdraw []))
        exact hnew hp
      rw [hunion, Set.ncard_union_eq hdisjoint (Set.toFinite _) (Set.toFinite _), ncard_draws hpos hle, ih hpoints,
        Set.ncard_insert_of_notMem hnew hfinite, Nat.succ_mul, Nat.add_comm]

end Draws

end Backfill.Branches
