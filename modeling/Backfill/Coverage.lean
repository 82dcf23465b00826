import Backfill.Range.Merge
import Backfill.Timestamp

/-!
# Coverage

Which part of an axis has been imported for one entity, and which part failed. Outcomes of fetches are
merged in sets: a success covers its range and takes it off the retry list, a failure puts it there.
-/

namespace Backfill

/-- The ranges covered and the ranges to retry; the two may overlap. -/
structure Coverage (α : Type) where
  covered : List (Range α)
  toRetry : List (Range α)
  lastImport : Timestamp
  deriving DecidableEq

namespace Coverage

variable {α : Type} [Axis α]

def empty (now : Timestamp) : Coverage α := ⟨[], [], now⟩

/-- Coverage after a set of outcomes. A range reported both ways is covered and to be retried. -/
def update (c : Coverage α) (outcomes : List (Range α × Bool)) (now : Timestamp) : Coverage α :=
  let successes := Range.merge ((outcomes.filter (·.2)).map (·.1))
  let failures := Range.merge ((outcomes.filter (!·.2)).map (·.1))
  { covered := Range.merge (c.covered ++ successes)
    toRetry := Range.merge (Range.exclude c.toRetry successes ++ failures)
    lastImport := now }

end Coverage

/-- The result of fetching one range for one entity. -/
structure Outcome (α : Type) where
  importKey : String
  range : Range α
  success : Bool
  deriving DecidableEq

end Backfill
