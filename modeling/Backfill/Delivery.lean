import Backfill.Query
import Backfill.Report
import Backfill.Keyed

/-!
# Deliveries

What the answer to a batch means for the entities it serves: an outcome for every range, a report for
every range that failed, and the entities that need a provider with the full history.
-/

namespace Backfill

/-- The answer to a batch: one result a query, unless the whole call failed. -/
abbrev BatchAnswer := Except RpcError (List (Except RpcError Unit))

namespace BatchAnswer

/-- What went wrong with each of `size` queries. An answer of another length fails all of them. -/
def failures (size : Nat) : BatchAnswer → List (Option RpcError)
  | .error e => List.replicate size (some e)
  | .ok results =>
    if results.length = size then
      results.map fun
        | .ok () => none
        | .error e => some e
    else
      List.replicate size
        (some (.invalidResponse "fetch" s!"{results.length} results for {size} queries"))

end BatchAnswer

/-- The ranges that a query served to one entity, and what went wrong. -/
structure Delivery where
  entity : Entity
  ranges : List (Range UInt64)
  failure : Option RpcError

namespace Delivery

/-- The deliveries of a batch, in the order of its queries. -/
def ofBatch (batch : List (Query Entity UInt64)) (answer : BatchAnswer) : List Delivery :=
  (batch.zip (answer.failures batch.length)).flatMap fun (query, failure) =>
    query.served.map fun (entity, ranges) => ⟨entity, ranges, failure⟩

/-- One outcome a range. -/
def outcomes (d : Delivery) : List (Outcome UInt64) :=
  d.ranges.map fun range => ⟨d.entity.importKey, range, d.failure.isNone⟩

/-- One report a range that failed. -/
def reports (provider : String) (d : Delivery) : List Report :=
  d.failure.elim [] fun e =>
    d.ranges.map fun range => ⟨d.entity.importKey, d.entity.address, range, provider, e.name, e.message⟩

/-- Whether the entity needs a node with the full history. -/
def needsArchive (d : Delivery) : Bool :=
  match d.failure with
  | some (.archiveNodeNeeded ..) => true
  | _ => false

/-- The keys that join a set, each once, in the order of the deliveries. -/
def joining (known : List String) : List Delivery → List String
  | [] => []
  | d :: rest =>
    let key := d.entity.importKey
    if d.needsArchive && !known.contains key then key :: joining (key :: known) rest else joining known rest

/-- The entry about an entity that is moved. -/
def movedEntry (importKey : String) : Log.Entry where
  level := .warn
  target := "vault_indexer::worker::chain_worker"
  message := "Pruned state, moving entity to an archive provider"
  fields := [("import_key", .worded importKey)]

end Delivery

end Backfill
