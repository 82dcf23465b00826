import Backfill.Provider
import Backfill.Error
import Backfill.Log

/-!
# Weighted branches

Branches own contiguous parts of the points from 1 to a total weight. A list is split by laying its
items evenly over the points; single items go to the owner of a point drawn at random. Random words
are an argument, not an effect.
-/

namespace Backfill

/-- Branches in order, each with the points that it owns. -/
structure Branches (κ : Type) where
  branches : List (κ × Range UInt64)
  total : UInt64

namespace Branches

variable {κ : Type}

/-- Lays weights out one after another. -/
def layOut : Nat → Nat → List (κ × UInt64) → Except ConfigError (List (κ × Range UInt64))
  | _, _, [] => .ok []
  | index, next, (key, weight) :: rest => do
    if weight = 0 then throw (.invalidWeights s!"branch {index} has a zero weight")
    let last := next + (weight.toNat - 1)
    if maxWord < last then throw (.invalidWeights "total weight overflows")
    let more ← layOut (index + 1) (min (last + 1) maxWord) rest
    return (key, ⟨next.toUInt64, last.toUInt64⟩) :: more

/-- Checks that each range starts where the one before it ended. -/
def checkTiles : Nat → Nat → List (κ × Range UInt64) → Except ConfigError Unit
  | _, _, [] => .ok ()
  | index, expected, (_, range) :: rest => do
    if !range.valid then
      throw (.invalidWeights
        s!"branch {index} has an inverted range {range.render fun n => toString n.toNat}")
    if range.first.toNat ≠ expected then
      throw (.invalidWeights s!"branch {index} starts at {range.first.toNat} instead of {expected}")
    checkTiles (index + 1) (min (range.last.toNat + 1) maxWord) rest

/-- Branches with explicit ranges, which must tile the points from 1 on in order. -/
def ofRanges (branches : List (κ × Range UInt64)) : Except ConfigError (Branches κ) := do
  checkTiles 0 1 branches
  match branches.getLast? with
  | none => throw (.invalidWeights "no branch configured")
  | some (_, range) => return ⟨branches, range.last⟩

/-- Branches that own as many points as their weights say. -/
def ofWeights (weights : List (κ × UInt64)) : Except ConfigError (Branches κ) := do
  ofRanges (← layOut 0 1 weights)

/-- The place of the branch that owns a point; points past the total belong to the last. -/
def placeOf (b : Branches κ) (point : UInt64) : Nat :=
  min (b.branches.findIdx fun (_, r) => decide (point ≤ r.last)) (b.branches.length - 1)

/-- The owner of a point. -/
def owner? (b : Branches κ) (point : UInt64) : Option κ := (b.branches[b.placeOf point]?).map (·.1)

/-- The point of item `position` of `count`. -/
def pointOf (b : Branches κ) (position count : Nat) : UInt64 :=
  (position * b.total.toNat / count + 1).toUInt64

/-- Every branch with its share of the items, the order kept. -/
def split {τ : Type} (b : Branches κ) (items : List τ) : List (κ × List τ) :=
  let placed := items.zipIdx.map fun (item, position) => (b.placeOf (b.pointOf position items.length), item)
  b.branches.zipIdx.map fun ((key, _), place) =>
    (key, (placed.filter (·.1 == place)).map (·.2))

/-! ## Draws -/

/-- A number from 1 to `total`, each equally likely: words whose product with the total falls into the
incomplete last stretch are skipped. Without words left the draw is 1. -/
def draw (total : UInt64) : List UInt64 → UInt64 × List UInt64
  | [] => (1, [])
  | word :: words =>
    let zone := (total.toNat * Nat.pow 2 (63 - total.toNat.log2) + maxWord) % Nat.pow 2 64
    let product := word.toNat * total.toNat
    if product % Nat.pow 2 64 ≤ zone then ((1 + product / Nat.pow 2 64).toUInt64, words) else draw total words

/-- The place of a branch drawn at random. -/
def drawPlace (b : Branches κ) (words : List UInt64) : Nat × List UInt64 :=
  let (point, words) := draw b.total words
  (b.placeOf point, words)

/-- Places drawn for so many items. -/
def drawPlaces (b : Branches κ) : Nat → List UInt64 → List Nat × List UInt64
  | 0, words => ([], words)
  | n + 1, words =>
    let (place, words) := b.drawPlace words
    let (places, words) := drawPlaces b n words
    (place :: places, words)

/-- Sends every item to a branch drawn at random; items for closed branches are dropped. What each
branch receives, and the log entries. -/
def distribute {τ : Type} (b : Branches κ) (closed : Nat → Bool) (words : List UInt64) (items : List τ) :
    List (List τ) × List Log.Entry :=
  let target := "vault_indexer::worker::weights"
  let placed := (b.drawPlaces items.length words).1.zip items
  let forwarded := placed.filter fun (place, _) => !closed place
  let dropped := placed.length - forwarded.length
  (b.branches.zipIdx.map fun (_, place) => (forwarded.filter (·.1 == place)).map (·.2),
    List.replicate dropped
      { level := .warn, target, message := "Weighted output closed, dropping item" } ++
    [{ level := .debug, target, message := "Weighted multiplex input closed"
       fields := [("forwarded", .count forwarded.length)] }])

end Branches

end Backfill
