import Backfill.Range
import Backfill.Log
import Backfill.Error

/-!
# Reports

A range that could not be imported is reported once with its cause; it stays on the retry list.
-/

namespace Backfill

/-- A failed range of one entity. -/
structure Report where
  importKey : String
  address : String
  range : Range UInt64
  /-- The provider that failed, under its lock key. -/
  provider : String
  /-- The name of the error. -/
  errorName : String
  message : String
  deriving DecidableEq, Repr

/-- The log entry of a report. -/
def Report.entry (r : Report) : Log.Entry where
  level := .warn
  target := "vault_indexer::connector::error_sink"
  message := "Range import failed"
  fields := [("import_key", .worded r.importKey), ("address", .text r.address),
    ("range", .worded (r.range.render fun n => toString n.toNat)), ("provider", .worded r.provider),
    ("error_type", .text r.errorName), ("error", .worded r.message)]

end Backfill
