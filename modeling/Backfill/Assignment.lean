import Backfill.Plan.Optimize
import Backfill.Plan.Window
import Backfill.Plan.Batch
import Backfill.Setup
import Backfill.Store
import Backfill.PacedCall

/-!
# Assignments

The entities that one provider is to import, and the plan of one pass over them: from the newest block
and the stored states to batches of queries.
-/

namespace Backfill

/-- Entities in the care of one provider. -/
structure Assignment where
  setup : Setup
  endpoint : Endpoint
  costs : CallCosts
  entities : List Entity

/-- The batches of a pass. -/
structure PassPlan where
  queries : List (Query Entity UInt64)
  batches : List (List (Query Entity UInt64))
  /-- How many batches may be under way at once. -/
  width : Nat

namespace Assignment

def target : String := "vault_indexer::worker::chain_worker"

/-- The caps on queries that the provider accepts. -/
def options (a : Assignment) : Plan.Options :=
  (Plan.Options.ofShaping a.setup.shaping).constrainedBy a.endpoint.limitations

def batchConfig (a : Assignment) : Except ConfigError Plan.BatchConfig :=
  Plan.batchConfig a.costs a.endpoint.limitations a.setup.stream a.endpoint.lockKey

/-- The terms of a call to the provider. -/
def callTerms (a : Assignment) (operation : String) : CallTerms where
  provider := a.endpoint.lockKey
  operation := operation
  minDelay := a.endpoint.limitations.minDelay.duration?
  retry := a.setup.retry
  lock := a.setup.lock

/-! ## Stored states -/

/-- Creates the states that entities lack. -/
def createStates (now : Timestamp) : List Entity → Store → Store × List Log.Entry
  | [], store => (store, [])
  | e :: rest, store =>
    if store.contains e.importKey then createStates now rest store
    else
      let (state, store) := store.createIfMissing (e.initialState now)
      let (store, entries) := createStates now rest store
      (store, { level := .debug, target, message := "Import state created"
                fields := [("import_key", .worded e.importKey), ("kind", .text state.data.tag)] } :: entries)

/-! ## Planning -/

def passContext (a : Assignment) (latest : UInt64) : Plan.PassContext :=
  ⟨a.setup.behaviour, latest, a.options.maxRange, a.setup.chain.msPerBlock⟩

/-- The planner's inputs; entities whose range is in error are left out. -/
def inputs (a : Assignment) (latest : UInt64) (lastImported : Keyed UInt64) (store : Store) :
    List (PlanInput Entity UInt64) :=
  a.entities.filterMap fun e =>
    (Plan.planInput (a.passContext latest) (lastImported.get? e.importKey) e (store.get? e.importKey)).toOption

/-- The log entries about the entities' ranges. -/
def inputEntries (a : Assignment) (latest : UInt64) (lastImported : Keyed UInt64) (store : Store) :
    List Log.Entry :=
  a.entities.flatMap fun e =>
    let ctx := a.passContext latest
    let last := lastImported.get? e.importKey
    let state := store.get? e.importKey
    Plan.rangeEntries ctx last e state ++
      match Plan.planInput ctx last e state with
      | .ok _ => []
      | .error cause => [{ level := .error, target, message := "Skipping entity"
                           fields := [("import_key", .worded e.importKey), ("error", .worded cause.message)] }]

/-- The earliest block that any input considers, or else the newest block. -/
def firstBlock (latest : UInt64) (inputs : List (PlanInput Entity UInt64)) : UInt64 :=
  ((inputs.filter (·.full.valid)).map (·.full.first)).min?.getD latest

/-- The index of a pass; the grid of blocks follows the tip. -/
def index (a : Assignment) (now : Timestamp) (latest : UInt64) (inputs : List (PlanInput Entity UInt64)) :
    Plan.Index UInt64 :=
  let shaping := a.setup.shaping
  let msPerBlock := a.setup.chain.msPerBlock
  match shaping.index with
  | .blob => .blob shaping.mergeGap (min shaping.sliceSize a.options.maxRange)
  | .blockList =>
    .fixed (Plan.BlockList.slices
      { samples := Plan.estimate (firstBlock latest inputs) ⟨latest, now⟩ msPerBlock shaping.sampling
        latest, msPerBlock
        interval := shaping.sampling
        maxBlocks := a.options.maxRange
        mode := a.setup.behaviour.mode })

/-- The plan of a pass whose newest block is known, and the log entries written on the way. -/
def plan (a : Assignment) (config : Plan.BatchConfig) (now : Timestamp) (latest : UInt64)
    (lastImported : Keyed UInt64) (store : Store) : PassPlan × List Log.Entry :=
  let inputs := a.inputs latest lastImported store
  let planned := Plan.optimize a.options (a.index now latest inputs) inputs
  let batches := Plan.batches config.maxObjects planned.queries
  (⟨planned.queries, batches, config.concurrency⟩,
    a.inputEntries latest lastImported store ++
      [planned.entry inputs.length,
        { level := .debug, target, message := "Queries planned"
          fields := [("latest_block_number", .count latest.toNat), ("queries", .count planned.queries.length),
            ("batches", .count batches.length), ("max_input_objs_per_batch", .count config.maxObjects),
            ("work_concurrency", .count config.concurrency)] }])

end Assignment

end Backfill
