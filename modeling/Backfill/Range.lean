import Backfill.Axis

/-!
# Inclusive ranges

A range holds every value between its two bounds, both included. Nothing refuses an inverted range: it
holds no value, and every operation treats it as empty.
-/

namespace Backfill

/-- The interval `[first, last]`. -/
structure Range (α : Type) where
  first : α
  last : α
  deriving DecidableEq, Repr, Inhabited

namespace Range

variable {α : Type} [Axis α]

/-- The range of one value. -/
def point (x : α) : Range α := ⟨x, x⟩

/-- A range is valid when its bounds are in order. -/
def valid (r : Range α) : Bool := decide (r.first ≤ r.last)

def isEmpty (r : Range α) : Bool := !r.valid

def contains (r : Range α) (x : α) : Bool := decide (r.first ≤ x) && decide (x ≤ r.last)

instance : Membership α (Range α) := ⟨fun r x => r.first ≤ x ∧ x ≤ r.last⟩

theorem mem_iff {r : Range α} {x : α} : x ∈ r ↔ r.first ≤ x ∧ x ≤ r.last := Iff.rfl

theorem contains_iff_mem {r : Range α} {x : α} : r.contains x = true ↔ x ∈ r := by
  simp [contains, mem_iff]

/-- The number of steps in the range. -/
def size (r : Range α) : Nat := Axis.span r.first r.last

/-- Two valid ranges share a value. -/
def overlaps (a b : Range α) : Bool :=
  a.valid && b.valid && decide (a.first ≤ b.last) && decide (b.first ≤ a.last)

/-- What two ranges share, if anything. -/
def intersect? (a b : Range α) : Option (Range α) :=
  if a.overlaps b then some ⟨Axis.later a.first b.first, Axis.earlier a.last b.last⟩ else none

/-- Order by first value, then by last. -/
def precedes (a b : Range α) : Bool :=
  Axis.before a.first b.first || (decide (a.first ≤ b.first) && decide (a.last ≤ b.last))

/-- The bounds in brackets, as in `[3, 7]`. -/
def render (text : α → String) (r : Range α) : String := s!"[{text r.first}, {text r.last}]"

/-- The bounds in braces, the form of lists of ranges in log entries. -/
def renderBraced (text : α → String) (r : Range α) : String :=
  "\x7b" ++ text r.first ++ ", " ++ text r.last ++ "\x7d"

end Range

/-- Which end of the axis goes first when only some ranges can be kept. -/
inductive Order where
  | oldestFirst
  | newestFirst
  deriving DecidableEq, Repr

end Backfill
