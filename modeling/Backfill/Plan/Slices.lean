import Backfill.Plan.Samples
import Backfill.Range.Split
import Backfill.Settings

/-!
# Slices of the axis

Queries of many entities are lined up on slices. Blobs are clusters of missing ranges; a block list
cuts at sampled blocks, whatever is missing.
-/

namespace Backfill.Plan

/-- How slices are found. -/
inductive Index (α : Type) where
  /-- Clusters of missing ranges with no gap above `mergeGap` steps, in slices of a bounded size. -/
  | blob (mergeGap sliceSize : Nat)
  /-- The same slices, whatever is missing. -/
  | fixed (slices : List (Range α))

namespace Index

variable {α : Type} [Axis α]

/-- Joins ascending ranges into the one before them when the gap between the two is small. -/
def fuseFrom (gap : Nat) (current : Range α) : List (Range α) → List (Range α)
  | [] => [current]
  | r :: rest =>
    if Axis.span (Axis.next current.last) (Axis.prev r.first) ≤ gap then
      fuseFrom gap ⟨current.first, r.last⟩ rest
    else current :: fuseFrom gap r rest

def fuse (gap : Nat) : List (Range α) → List (Range α)
  | [] => []
  | r :: rest => fuseFrom gap r rest

/-- The slices for what is missing. -/
def slices (needed : List (Range α)) : Index α → List (Range α)
  | blob gap size => Range.splitAll (fuse gap (Range.merge needed)) size
  | fixed slices => slices

end Index

/-- A grid of sampled blocks. -/
structure BlockList where
  samples : List Sample
  latest : UInt64
  interval : Nat
  msPerBlock : Nat
  maxBlocks : Nat
  mode : ImportMode

namespace BlockList

/-- The most blocks of one slice: those of one interval, within the limit on a query. -/
def sliceSize (b : BlockList) : Nat :=
  max 1 (min (min (b.interval / 1000000) maxWord / max 1 b.msPerBlock) b.maxBlocks)

/-- Drops repetitions from an ascending list. -/
def dedup : List UInt64 → List UInt64
  | a :: b :: rest => if a = b then dedup (b :: rest) else a :: dedup (b :: rest)
  | short => short

/-- From each number to just before the next one; the last number reaches to the latest block. -/
def cells (latest : UInt64) : List UInt64 → List (Range UInt64)
  | [] => []
  | [last] => [⟨last, if last ≤ latest then latest else last⟩]
  | a :: b :: rest => ⟨a, b - 1⟩ :: cells latest (b :: rest)

/-- The slices of the grid; only the newest one in recent mode. -/
def slices (b : BlockList) : List (Range UInt64) :=
  let numbers := dedup ((b.samples.map (·.number)).mergeSort fun x y => decide (x ≤ y))
  let all := Range.splitAll (cells b.latest numbers) b.sliceSize
  match b.mode with
  | .historical => all
  | .recent => all.getLast?.toList

end BlockList

end Backfill.Plan
