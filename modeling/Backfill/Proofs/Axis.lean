import Backfill.Axis
import Mathlib.Data.Set.Card
import Mathlib.Order.CompletePartialOrder

/-!
# Discrete axes

On a discrete axis a step reaches the nearest value and stays put only at the end of the axis. Ranges of
such an axis are sets of values without holes; comparisons are stated on ranks, where they are integer
arithmetic. Blocks are the discrete axis in use.
-/

namespace Backfill

/-- An axis whose steps leave out no value. -/
class DiscreteAxis (α : Type) [Axis α] : Prop where
  rank_next_of_lt : ∀ {a b : α}, Axis.rank a < Axis.rank b → Axis.rank (Axis.next a) = Axis.rank a + 1
  rank_le_next : ∀ a : α, Axis.rank a ≤ Axis.rank (Axis.next a)
  rank_prev_of_lt : ∀ {a b : α}, Axis.rank b < Axis.rank a → Axis.rank (Axis.prev a) = Axis.rank a - 1
  /-- Moving ahead passes no value that is near enough, … -/
  rank_le_advance : ∀ {a b : α} {n : Nat}, Axis.rank b ≤ Axis.rank a + n →
    Axis.rank b ≤ Axis.rank (Axis.advance a n)
  /-- … and reaches none that is farther away. -/
  rank_advance_le : ∀ (a : α) (n : Nat), Axis.rank (Axis.advance a n) ≤ Axis.rank a + n

export DiscreteAxis (rank_next_of_lt rank_le_next rank_prev_of_lt rank_le_advance rank_advance_le)

section

variable {α : Type} [Axis α] [DiscreteAxis α]

theorem rank_next_le {a b : α} (h : Axis.rank a < Axis.rank b) : Axis.rank (Axis.next a) ≤ Axis.rank b := by
  rw [rank_next_of_lt h]
  omega

theorem rank_next_mono {a b : α} (h : Axis.rank a ≤ Axis.rank b) :
    Axis.rank (Axis.next a) ≤ Axis.rank (Axis.next b) := by
  rcases Int.lt_or_eq_of_le h with h | h
  · exact Int.le_trans (rank_next_le h) (rank_le_next b)
  · rw [Axis.rank_inj a b h]

theorem rank_next_prev {a b : α} (h : Axis.rank b < Axis.rank a) :
    Axis.rank (Axis.next (Axis.prev a)) = Axis.rank a := by
  have hp := rank_prev_of_lt h
  rw [rank_next_of_lt (b := a) (by omega)]
  omega

theorem exists_rank_eq {a b : α} {n : Nat} (h : Axis.rank a + n ≤ Axis.rank b) :
    ∃ c : α, Axis.rank c = Axis.rank a + n := by
  induction n with
  | zero => exact ⟨a, by omega⟩
  | succ n ih =>
      obtain ⟨c, hc⟩ := ih (by omega)
      exact ⟨Axis.next c, by rw [rank_next_of_lt (b := b) (by omega)]; omega⟩

theorem rank_advance_eq {a b : α} {n : Nat} (h : Axis.rank a + n ≤ Axis.rank b) :
    Axis.rank (Axis.advance a n) = Axis.rank a + n := by
  obtain ⟨c, hc⟩ := exists_rank_eq h
  have := rank_le_advance (Int.le_of_eq hc)
  have := rank_advance_le a n
  omega

end

namespace Axis

variable {α : Type} [Axis α] {a b : α}

theorem earlier_of_le (h : rank a ≤ rank b) : earlier a b = a := if_pos ((le_iff_rank a b).2 h)

theorem earlier_of_ge (h : rank b ≤ rank a) : earlier a b = b := by
  apply rank_inj
  rw [rank_earlier]
  omega

end Axis

/-! ## Blocks -/

theorem rank_word (a : UInt64) : Axis.rank a = (a.toNat : Int) := rfl

theorem word_lt_iff_rank {a b : UInt64} : a < b ↔ Axis.rank a < Axis.rank b := by
  rw [UInt64.lt_iff_toNat_lt, rank_word, rank_word, Int.ofNat_lt]

instance : DiscreteAxis UInt64 where
  rank_next_of_lt {a b} h := by
    have hb := b.toNat_lt
    simp only [rank_word] at h ⊢
    simp only [Axis.next, toNat_clampWord, maxWord]
    omega
  rank_le_next a := by
    have ha := a.toNat_lt
    simp only [rank_word, Axis.next, toNat_clampWord, maxWord]
    omega
  rank_prev_of_lt {a b} h := by
    have ha := a.toNat_lt
    simp only [rank_word] at h ⊢
    simp only [Axis.prev, toNat_clampWord, maxWord]
    omega
  rank_le_advance {a b n} h := by
    have hb := b.toNat_lt
    simp only [rank_word] at h ⊢
    simp only [Axis.advance, toNat_clampWord, maxWord]
    omega
  rank_advance_le a n := by
    simp only [rank_word, Axis.advance, toNat_clampWord]
    omega

instance finite_word : Finite UInt64 := Finite.of_injective UInt64.toFin fun _ _ h => UInt64.toFin_inj.1 h

/-! ## Sorting by a key -/

theorem ascending_mergeSort {α β : Type} [LE β] [DecidableLE β] (htrans : ∀ a b c : β, a ≤ b → b ≤ c → a ≤ c)
    (htotal : ∀ a b : β, a ≤ b ∨ b ≤ a) (key : α → β) (xs : List α) :
    (xs.mergeSort fun x y => decide (key x ≤ key y)).Pairwise fun x y => key x ≤ key y := by
  have hsorted : (xs.mergeSort fun x y => decide (key x ≤ key y)).Pairwise
      fun x y => decide (key x ≤ key y) = true := by
    apply List.pairwise_mergeSort
    · intro x y z hxy hyz
      simp only [decide_eq_true_eq] at hxy hyz ⊢
      exact htrans _ _ _ hxy hyz
    · intro x y
      simp only [Bool.or_eq_true, decide_eq_true_eq]
      exact htotal _ _
  exact hsorted.imp of_decide_eq_true

end Backfill
