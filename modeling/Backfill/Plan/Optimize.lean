import Backfill.Plan.Slices
import Backfill.Provider
import Backfill.Query
import Backfill.Log

/-!
# Planning queries

Missing ranges of many entities become few queries, newest data first. Entities that miss data in the
same slice share a query when scanning its hull costs no more than scanning each part; otherwise they
are asked for one by one. What failed before is asked for again only in the room that new data leaves.
-/

namespace Backfill.Plan

/-- Caps on every planned query. -/
structure Options where
  maxAddresses : Nat
  maxRange : Nat
  /-- Queries an entity may take part in. -/
  maxQueries : Nat

namespace Options

def ofShaping (s : Shaping) : Options := ⟨s.maxAddresses, s.maxBlocks, s.maxQueries⟩

/-- Caps tightened to what a provider accepts; none falls below 1. -/
def constrainedBy (o : Options) (l : Limitations) : Options :=
  let capped (n : Nat) (limit : Option UInt64) : Nat := max 1 (limit.elim n fun m => min n m.toNat)
  { o with maxAddresses := capped o.maxAddresses l.addressBatch, maxRange := capped o.maxRange l.blockSpan }

end Options

variable {ε α : Type} [Axis α]

/-- An entity that misses something. -/
structure Asker (ε α : Type) where
  entity : ε
  /-- Never fetched, merged, as far as the cap allows. -/
  fresh : List (Range α)
  /-- Failed before. -/
  retries : List (Range α)

/-- What one input asks for, if its range is valid. -/
def asker? (o : Options) (input : PlanInput ε α) : Option (Asker ε α) :=
  if input.full.valid then
    let todo := Range.todo input.full input.covered input.toRetry (max 1 o.maxRange) o.maxQueries
    some ⟨input.entity, Range.merge todo.fresh, Range.clip input.toRetry input.full⟩
  else none

/-- Slices of bounded size that hold something missing, newest first. -/
def orderedSlices (maxRange : Nat) (index : Index α) (askers : List (Asker ε α)) : List (Range α) :=
  let needed := Range.merge (askers.flatMap (·.fresh))
  if needed.isEmpty then []
  else
    let slices := (Range.splitAll (index.slices needed) maxRange).filter fun s => needed.any (·.overlaps s)
    slices.mergeSort fun a b => decide (b.first ≤ a.first)

/-- Consecutive groups of `n + 1` items, the last one possibly shorter. -/
def groupsOf {β : Type} (n : Nat) (xs : List β) : List (List β) :=
  match xs with
  | [] => []
  | x :: rest => (x :: rest.take n) :: groupsOf n (rest.drop n)
termination_by xs.length
decreasing_by simp only [List.length_drop, List.length_cons]; omega

/-- An asker's place in the list, the asker, and its parts of the slice at hand. -/
structure Member (ε α : Type) where
  place : Nat
  asker : Asker ε α
  parts : List (Range α)

/-- What the scans of a group cost one by one, added up in words; past the last word the sum starts over. -/
def separateCost (group : List (Member ε α)) : Nat :=
  group.foldr (fun m n => Range.totalSize m.parts + n) 0 % (maxWord + 1)

/-- The range of a query that the group shares, when one scan over everything costs no more than one
scan a part. -/
def sharedRange? (group : List (Member ε α)) : Option (Range α) :=
  if group.length < 2 then none
  else
    match Range.hull? (group.flatMap (·.parts)) with
    | none => none
    | some hull => if hull.size ≤ separateCost group then some hull else none

variable [DecidableEq α]

def sharedQuery (group : List (Member ε α)) (range : Range α) : Query ε α :=
  .shared (group.map (·.asker.entity)) range
    (group.map fun m => (m.asker.entity, if m.parts = [range] then .whole else .parts m.parts))

/-- How many queries the asker at a place takes part in so far. -/
def usedBy (used : List Nat) (place : Nat) : Nat := used.getD place 0

/-- The queries of one group and the counts after it. -/
def serveGroup (cap : Nat) (used : List Nat) (group : List (Member ε α)) : List (Query ε α) × List Nat :=
  match sharedRange? group with
  | some range =>
    ([sharedQuery group range], group.foldl (fun used m => used.modify m.place (· + 1)) used)
  | none =>
    group.foldl (fun (queries, used) m =>
      let parts := m.parts.reverse.take (cap - usedBy used m.place)
      (queries ++ parts.map (.single m.asker.entity ·), used.modify m.place (· + parts.length))) ([], used)

/-- The askers with room left that miss something in a slice. -/
def membersOf (cap : Nat) (used : List Nat) (askers : List (Asker ε α)) (slice : Range α) :
    List (Member ε α) :=
  askers.zipIdx.filterMap fun (asker, place) =>
    if usedBy used place < cap then
      let parts := Range.clip asker.fresh slice
      if parts.isEmpty then none else some ⟨place, asker, parts⟩
    else none

/-- The queries of one slice and the counts after it. -/
def serveSlice (o : Options) (askers : List (Asker ε α)) (used : List Nat) (slice : Range α) :
    List (Query ε α) × List Nat :=
  (groupsOf (max 1 o.maxAddresses - 1) (membersOf o.maxQueries used askers slice)).foldl
    (fun (queries, used) group =>
      let (more, used) := serveGroup o.maxQueries used group
      (queries ++ more, used)) ([], used)

/-- Retries in the room that new data left. -/
def retryQueries (o : Options) (used : List Nat) (askers : List (Asker ε α)) : List (Query ε α) :=
  askers.zipIdx.flatMap fun (asker, place) =>
    (Range.takePieces asker.retries (max 1 o.maxRange) (o.maxQueries - usedBy used place) .newestFirst).map
      (.single asker.entity ·)

/-- A finished plan. -/
structure Planned (ε α : Type) where
  slices : List (Range α)
  queries : List (Query ε α)

/-- The queries that fetch what the inputs miss, as far as the caps allow. -/
def optimize (o : Options) (index : Index α) (inputs : List (PlanInput ε α)) : Planned ε α :=
  let askers := inputs.filterMap (asker? o)
  let slices := orderedSlices (max 1 o.maxRange) index askers
  let (queries, used) := slices.foldl (fun (queries, used) slice =>
    let (more, used) := serveSlice o askers used slice
    (queries ++ more, used)) ([], askers.map fun _ => 0)
  ⟨slices, queries ++ retryQueries o used askers⟩

/-- The log entry of a finished plan. -/
def Planned.entry (p : Planned ε α) (inputs : Nat) : Log.Entry where
  level := .debug
  target := "vault_indexer::sync::optimizer"
  message := "Optimized queries"
  fields := [("entities", .count inputs), ("slices", .count p.slices.length),
    ("queries", .count p.queries.length)]

end Backfill.Plan
