/-!
# Log entries

What happened, as data: a level, the module it concerns, a message and named values, inside spans that
name the work in progress. Writers and filters are separate.
-/

namespace Backfill.Log

/-- From the least to the most important. -/
inductive Level where
  | trace
  | debug
  | info
  | warn
  | error
  deriving DecidableEq, Repr

namespace Level

def rank : Level → Nat
  | trace => 0
  | debug => 1
  | info => 2
  | warn => 3
  | error => 4

/-- The name in log lines. -/
def text : Level → String
  | trace => "TRACE"
  | debug => "DEBUG"
  | info => "INFO"
  | warn => "WARN"
  | error => "ERROR"

end Level

/-- A named value of an entry. -/
inductive Value where
  | text (s : String)
  /-- A value that was already put into words. -/
  | worded (s : String)
  | count (n : Nat)
  | delta (i : Int)
  | flag (b : Bool)
  /-- The bits of a floating-point number. -/
  | ratio (bits : UInt64)
  deriving DecidableEq, Repr

/-- Work in progress: fields are texts, of two with one name the later counts. -/
structure Span where
  name : String
  target : String
  fields : List (String × String)
  deriving DecidableEq, Repr

structure Entry where
  level : Level
  target : String
  message : String
  fields : List (String × Value) := []
  /-- Outermost first. -/
  spans : List Span := []
  deriving DecidableEq, Repr

/-- The entry inside these spans. -/
def Entry.inside (spans : List Span) (e : Entry) : Entry := { e with spans := spans ++ e.spans }

end Backfill.Log
