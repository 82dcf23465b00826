import Backfill.Provider
import Backfill.Query
import Backfill.Error

/-!
# Batches

How many entities' calls fit into one batch of a provider, and the division of a plan's queries into
such batches.
-/

namespace Backfill.Plan

/-- The size of batches and how many may be under way at once. -/
structure BatchConfig where
  maxObjects : Nat
  concurrency : Nat
  deriving DecidableEq

/-- The most entities that a kind's limit admits when each costs `calls`; one where batching is unsafe. -/
def achievable (limit : Option UInt64) (calls : Nat) : Nat := limit.elim 1 fun l => l.toNat / calls

/-- The smallest of `most` and what each used kind admits; an error for a used kind that was never
probed. -/
def batchSize (costs : CallCosts) (l : Limitations) (provider : String) :
    List CallKind → Nat → Except ConfigError Nat
  | [], most => .ok most
  | kind :: kinds, most =>
    let calls := costs.count kind
    if calls = 0 then batchSize costs l provider kinds most
    else
      match l.limit? kind with
      | none => .error (.missingLimitation kind.text provider)
      | some limit => batchSize costs l provider kinds (min most (achievable limit calls))

/-- The largest batches that keep every used kind under its limit. Only providers without a minimum delay
get several batches at once. -/
def batchConfig (costs : CallCosts) (l : Limitations) (stream : Stream) (provider : String) :
    Except ConfigError BatchConfig := do
  let size ← batchSize costs l provider CallKind.all (max 1 stream.maxTake)
  return ⟨max 1 size, match l.minDelay with
    | .noLimit => max 1 stream.concurrency
    | .millis _ => 1⟩

/-- Batches of consecutive queries: a query joins the batch before it as long as the costs fit. -/
def batchesFrom {ε α : Type} (maxObjects : Nat) (current : List (Query ε α)) (cost : Nat) :
    List (Query ε α) → List (List (Query ε α))
  | [] => if current.isEmpty then [] else [current]
  | q :: rest =>
    if !current.isEmpty && decide (maxObjects < cost + q.cost) then
      current :: batchesFrom maxObjects [q] q.cost rest
    else batchesFrom maxObjects (current ++ [q]) (cost + q.cost) rest

/-- Consecutive batches of at most `maxObjects` entities; a larger query has a batch of its own. -/
def batches {ε α : Type} (maxObjects : Nat) (queries : List (Query ε α)) : List (List (Query ε α)) :=
  batchesFrom maxObjects [] 0 queries

end Backfill.Plan
