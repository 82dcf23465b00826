import Backfill.Log
import Backfill.Text.Blank

/-!
# Filters of log entries

A filter gives the least level for targets by how they begin; the longest beginning counts. Spans have
the level of information, and those that the filter drops leave no trace in the entries inside them.
-/

namespace Backfill.Log

/-- The least level that passes for targets that begin so; nothing passes without a level. -/
structure Directive where
  target : String
  level : Option Level
  deriving DecidableEq, Repr

abbrev Filter := List Directive

namespace Filter

/-- Everything from a level on. -/
def ofLevel (level : Level) : Filter := [⟨"", some level⟩]

/-- The level that counts for a target. -/
def levelFor? (f : Filter) (target : String) : Option Level :=
  let fitting := f.filter fun d => d.target.toList.isPrefixOf target.toList
  let best := fitting.foldl (fun best d =>
    match best with
    | none => some d
    | some b => if b.target.length ≤ d.target.length then some d else some b) (none : Option Directive)
  best.bind (·.level)

def passes (f : Filter) (level : Level) (target : String) : Bool :=
  (f.levelFor? target).any fun least => decide (least.rank ≤ level.rank)

/-- The entries that pass, without the spans that do not. -/
def apply (f : Filter) (entries : List Entry) : List Entry :=
  (entries.filter fun e => f.passes e.level e.target).map fun e =>
    { e with spans := e.spans.filter fun s => f.passes .info s.target }

/-! ## Reading -/

/-- A level by name or number; `off` and 0 let nothing pass. -/
def readLevel? (s : String) : Option (Option Level) :=
  match String.ofList (s.toList.map Char.toLower) with
  | "off" | "0" => some none
  | "error" | "1" => some (some .error)
  | "warn" | "2" => some (some .warn)
  | "info" | "3" => some (some .info)
  | "debug" | "4" => some (some .debug)
  | "trace" | "5" => some (some .trace)
  | _ => none

/-- Letters, digits and the signs of module paths; of characters beyond ASCII all count. -/
def opensDirective (c : Char) : Bool := c.isAlphanum || c == '_' || c == ':' || c == '-' || 128 ≤ c.toNat

/-- A level, a target, or both with a sign between them. Blanks belong to what they stand beside. -/
def readDirective? (s : String) : Option Directive :=
  if !(Text.trim s.toList).head?.any opensDirective || s.contains '[' then none
  else
    match s.splitOn "=" with
    | [one] => some ((readLevel? one).elim ⟨one, some .trace⟩ (⟨"", ·⟩))
    | [target, level] =>
      if s.toList.head?.any Text.isBlank then none
      else (if level.isEmpty then some (some .trace) else readLevel? level).map (⟨target, ·⟩)
    | _ => none

/-- Directives between commas; the empty text lets only errors pass. -/
def read? (s : String) : Option Filter := do
  let directives ← ((s.splitOn ",").filter (!·.isEmpty)).mapM readDirective?
  return if directives.isEmpty then ofLevel .error else directives

/-- The program's own entries from information on. -/
def standard : Filter := [⟨"vault_indexer", some .info⟩]

end Filter

end Backfill.Log
