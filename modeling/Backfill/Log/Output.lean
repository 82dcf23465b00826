import Backfill.Environment
import Backfill.Log.Filter
import Backfill.Log.Line

/-!
# The process log

Which entries a process writes, and how, is set by two variables of its environment.
-/

namespace Backfill.Log

/-- How a process writes its log. -/
structure Output where
  filter : Filter
  /-- Records for machines instead of columns. -/
  records : Bool

namespace Output

/-- The output that the environment asks for; a filter that cannot be read counts for nothing. -/
def ofEnvironment (env : Environment) : Output where
  filter := ((env.get? "RUST_LOG").bind Filter.read?).getD Filter.standard
  records := env.get? "LOG_FORMAT" == some "json"

/-- The line of an entry that passed the filter, its end included. -/
def line (o : Output) (now : Timestamp) (e : Entry) : String :=
  if o.records then e.jsonLine now else e.columnLine now

/-- The lines of some entries. -/
def lines (o : Output) (now : Timestamp) (entries : List Entry) : List String :=
  (o.filter.apply entries).map (o.line now)

end Output

end Backfill.Log
