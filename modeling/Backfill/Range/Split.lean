import Backfill.Range.Merge

/-!
# Splitting ranges into pieces

A range is cut into consecutive pieces of a bounded number of steps, and the pieces of a list can be
limited to those at one end of the axis.
-/

namespace Backfill.Range

variable {α : Type} [Axis α]

/-- The piece of `length` steps that starts at `start`, cut off at `last`. -/
def pieceAt (length : Nat) (last start : α) : Range α :=
  ⟨start, Axis.earlier (Axis.advance start (length - 1)) last⟩

/-- Where the piece after the one at `start` begins, or nothing when that one reaches `last`. -/
def nextStart? (length : Nat) (last start : α) : Option α :=
  let piece := pieceAt length last start
  if last ≤ piece.last then none else some (Axis.next piece.last)

/-- One turn of cutting: the pieces so far, newest first, and where the next one begins, or all of them in order once
one has reached `last`. -/
def cutOnce (length : Nat) (last : α) : List (Range α) × α → (List (Range α) × α) ⊕ List (Range α)
  | (pieces, start) =>
    (nextStart? length last start).elim (.inr (pieceAt length last start :: pieces).reverse)
      fun later => .inl (pieceAt length last start :: pieces, later)

/-- The pieces from `start` on, for as long as it takes until one reaches `last`. -/
def cutOn (length : Nat) (last start : α) : List (Range α) := repeatM (m := Id) (cutOnce length last) ([], start)

/-- The same pieces. Recursion on `fuel` makes as many as that, which proofs can compute; then cutting goes on. -/
def piecesFrom (length : Nat) (last : α) : Nat → α → List (Range α)
  | 0, start => cutOn length last start
  | fuel + 1, start =>
    pieceAt length last start ::
      match nextStart? length last start with
      | none => []
      | some start => piecesFrom length last fuel start

/-- Consecutive pieces of at most `length` steps; a length of 0 counts as 1. Where each piece starts later than the one
before, a range has no more pieces than ranks. -/
def split (r : Range α) (length : Nat) : List (Range α) :=
  if r.valid then
    piecesFrom (max length 1) r.last ((Axis.rank r.last - Axis.rank r.first).toNat + 1) r.first
  else []

/-- The pieces of every range, in the order of the ranges. -/
def splitAll (ranges : List (Range α)) (length : Nat) : List (Range α) := ranges.flatMap (split · length)

/-- At most `limit` pieces from the end of the axis that goes first. -/
def takePieces (ranges : List (Range α)) (length limit : Nat) (order : Order) : List (Range α) :=
  let pieces := (splitAll ranges length).mergeSort precedes
  match order with
  | .oldestFirst => pieces.take limit
  | .newestFirst => pieces.reverse.take limit

/-- What an entity should be asked for next. -/
structure Todo (α : Type) where
  /-- Never fetched, newest first. -/
  fresh : List (Range α)
  /-- Failed before, newest first, only in the room that `fresh` leaves. -/
  retries : List (Range α)
  deriving DecidableEq, Repr

/-- Fresh pieces, then retries. -/
def Todo.all (todo : Todo α) : List (Range α) := todo.fresh ++ todo.retries

/-- Splits what is left of `full` into at most `limit` pieces of at most `length` steps. A range that
failed stays due until a success takes it off the list, whether it is covered or not. -/
def todo (full : Range α) (covered toRetry : List (Range α)) (length limit : Nat) : Todo α :=
  if full.valid then
    let retry := clip toRetry full
    let fresh := takePieces (exclude [full] (covered ++ retry)) length limit .newestFirst
    ⟨fresh, takePieces retry length (limit - fresh.length) .newestFirst⟩
  else ⟨[], []⟩

end Backfill.Range
