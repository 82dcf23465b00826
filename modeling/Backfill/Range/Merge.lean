import Backfill.Range

/-!
# Merged lists of ranges

Merging drops inverted ranges, sorts the others and joins those that overlap or touch. Difference and
intersection give merged lists.
-/

namespace Backfill.Range

variable {α : Type} [Axis α]

/-- Joins sorted valid ranges into the one before them as long as they overlap it or touch its end. -/
def joinFrom (current : Range α) : List (Range α) → List (Range α)
  | [] => [current]
  | r :: rest =>
    if r.first ≤ Axis.next current.last then
      joinFrom ⟨current.first, Axis.later current.last r.last⟩ rest
    else current :: joinFrom r rest

/-- Joins sorted valid ranges. -/
def join : List (Range α) → List (Range α)
  | [] => []
  | r :: rest => joinFrom r rest

/-- The valid ranges in ascending order. -/
def sorted (ranges : List (Range α)) : List (Range α) := (ranges.filter valid).mergeSort precedes

/-- The same values in ascending ranges, no two of which overlap or touch. -/
def merge (ranges : List (Range α)) : List (Range α) := join (sorted ranges)

/-- What ascending exclusions leave of one range. -/
def cut (current : Range α) : List (Range α) → List (Range α)
  | [] => [current]
  | hole :: holes =>
    if Axis.before current.last hole.first then [current]
    else if !current.overlaps hole then cut current holes
    else
      let head := if Axis.before current.first hole.first then
        [⟨current.first, Axis.prev hole.first⟩] else []
      if Axis.before hole.last current.last then
        head ++ cut ⟨Axis.next hole.last, current.last⟩ holes
      else head

/-- The values of `ranges` that are in none of `holes`. -/
def exclude (ranges holes : List (Range α)) : List (Range α) :=
  let holes := merge holes
  (merge ranges).flatMap (cut · holes)

/-- The values of `ranges` inside `bounds`. -/
def clip (ranges : List (Range α)) (bounds : Range α) : List (Range α) :=
  merge (ranges.filterMap (intersect? · bounds))

/-- The number of steps in all ranges, overlaps counted once. -/
def totalSize (ranges : List (Range α)) : Nat := (merge ranges).foldr (fun r n => r.size + n) 0

/-- The smallest range that holds every given one. -/
def hull? : List (Range α) → Option (Range α)
  | [] => none
  | r :: rest => some (rest.foldl (fun h r => ⟨Axis.earlier h.first r.first, Axis.later h.last r.last⟩) r)

end Backfill.Range
