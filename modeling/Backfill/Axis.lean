import Backfill.Word

/-!
# Axes of values

An axis is an ordered type of values with a smallest step, on which inclusive ranges lie. The order is
that of an integer rank, so facts about an axis reduce to integer arithmetic. Block numbers are the
axis of machine words; their steps saturate at both ends.
-/

namespace Backfill

/-- An ordered type with one smallest step. -/
class Axis (α : Type) extends LE α where
  decLe : DecidableLE α
  /-- The place of a value on the integer line. -/
  rank : α → Int
  le_iff_rank : ∀ a b : α, a ≤ b ↔ rank a ≤ rank b
  rank_inj : ∀ a b : α, rank a = rank b → a = b
  /-- One step later, or the value itself where there is none. -/
  next : α → α
  /-- One step earlier, or the value itself where there is none. -/
  prev : α → α
  /-- The number of steps in an inclusive interval, 0 when it is inverted. -/
  span : α → α → Nat
  /-- So many steps later, or the end of the axis. -/
  advance : α → Nat → α

instance Axis.decidableLE {α : Type} [Axis α] : DecidableLE α := Axis.decLe

namespace Axis

variable {α : Type} [Axis α]

/-- Strictly earlier on the axis. -/
def before (a b : α) : Bool := decide (¬ b ≤ a)

/-- The later of two values. -/
def later (a b : α) : α := if a ≤ b then b else a

/-- The earlier of two values. -/
def earlier (a b : α) : α := if a ≤ b then a else b

theorem before_iff (a b : α) : before a b = true ↔ rank a < rank b := by
  simp [before, le_iff_rank]

theorem rank_later (a b : α) : rank (later a b) = max (rank a) (rank b) := by
  unfold later
  split <;> rename_i h <;> rw [le_iff_rank] at h <;> omega

theorem rank_earlier (a b : α) : rank (earlier a b) = min (rank a) (rank b) := by
  unfold earlier
  split <;> rename_i h <;> rw [le_iff_rank] at h <;> omega

end Axis

/-! ## Words -/

/-- The length of an inclusive interval of words, at most the largest word. -/
def wordSpan (a b : UInt64) : Nat :=
  if b < a then 0 else min (b.toNat - a.toNat + 1) maxWord

instance : Axis UInt64 where
  decLe := inferInstance
  rank a := a.toNat
  le_iff_rank a b := by rw [UInt64.le_iff_toNat_le]; omega
  rank_inj a b h := UInt64.toNat_inj.1 (by omega)
  next a := clampWord (a.toNat + 1)
  prev a := clampWord (a.toNat - 1)
  span := wordSpan
  advance a n := clampWord (a.toNat + n)

end Backfill
