import Backfill.ImportState

/-!
# Entities and queries

Entities are tracked under a key and queried by address. A query scans one range for one entity, or
one range for several at once; in the second case each entity says which part it needs.
-/

namespace Backfill

/-- Something with an import state of its own. -/
structure Entity where
  importKey : String
  address : String
  /-- Entities at the end of their life get no new data. -/
  live : Bool
  /-- The payload of the state with which the entity starts. -/
  data : ImportData
  deriving DecidableEq

/-- The state with which an entity starts. -/
def Entity.initialState (e : Entity) (now : Timestamp) : ImportState := ⟨e.importKey, e.data.fresh now⟩

/-- What the planner knows about one entity. -/
structure PlanInput (ε α : Type) where
  entity : ε
  full : Range α
  covered : List (Range α)
  toRetry : List (Range α)

/-- The part of a shared query's range that one entity needs. -/
inductive Need (α : Type) where
  | whole
  | parts (ranges : List (Range α))

/-- One physical call. -/
inductive Query (ε α : Type) where
  | single (entity : ε) (range : Range α)
  | shared (entities : List ε) (range : Range α) (needs : List (ε × Need α))

namespace Query

variable {ε α : Type}

/-- The range that the call scans. -/
def range : Query ε α → Range α
  | single _ r => r
  | shared _ r _ => r

/-- The entities that the call lists. -/
def entities : Query ε α → List ε
  | single e _ => [e]
  | shared es _ _ => es

/-- How many entities the call costs in a batch. -/
def cost (q : Query ε α) : Nat := q.entities.length

/-- What each entity gets out of the call. -/
def served [Axis α] : Query ε α → List (ε × List (Range α))
  | single e r => [(e, [r])]
  | shared _ r needs => needs.map fun (e, need) =>
    (e, match need with
      | .whole => [r]
      | .parts ranges => Range.clip ranges r)

end Query

end Backfill
