import Backfill.Delivery
import Backfill.Provider.Endpoint

/-!
# A scripted fetcher

Answers for newest blocks and batches that follow a script, with a record of what was asked.
-/

namespace Backfill.Rehearsal

/-- Which queries fail. -/
structure FetchRule where
  /-- An address that the query lists; any when there is none. -/
  address : Option String
  /-- The provider's place. -/
  provider : Option Nat
  /-- Providers with the full history are spared. -/
  sparesArchive : Bool
  /-- A range that the query's range overlaps. -/
  range : Option (Range UInt64)
  /-- How many attempts at a batch fail; all when there is none. -/
  times : Option Nat
  error : RpcError

/-- Whether a query to a provider fails by the rule. -/
def FetchRule.hits (r : FetchRule) (place : Nat) (archive : Bool) (q : Query Entity UInt64) : Bool :=
  r.address.all (fun a => q.entities.any (·.address == a)) && r.provider.all (· == place) &&
    !(r.sparesArchive && archive) && r.range.all q.range.overlaps

structure FetchScript where
  /-- The newest blocks, one a call; the last one is repeated. -/
  tips : List (Except RpcError UInt64) := []
  /-- Rules for single queries. -/
  failing : List FetchRule := []
  /-- Rules for whole calls. -/
  transport : List FetchRule := []
  /-- Results added at the end of an answer, or taken away. -/
  extra : Int := 0
  /-- The fetch during which the work is cancelled, counted from 1. -/
  cancelAt : Option Nat := none

/-- What identifies a batch: the addresses and the range of each query. -/
abbrev BatchContent := List (List String × Range UInt64)

/-- A batch that was asked for, with the number of attempts. -/
structure Tried where
  provider : Nat
  content : BatchContent
  attempts : Nat

structure Fetcher where
  script : FetchScript := {}
  /-- Calls for the newest block so far. -/
  tipCalls : Nat := 0
  /-- Fetches so far. -/
  fetches : Nat := 0
  /-- In the order of first attempts. -/
  tried : List Tried := []

namespace Fetcher

/-- Another script; the record starts anew. -/
def load (script : FetchScript) : Fetcher := { script }

def contentOf (batch : List (Query Entity UInt64)) : BatchContent :=
  batch.map fun q => (q.entities.map (·.address), q.range)

def tip (f : Fetcher) : Except RpcError UInt64 × Fetcher :=
  (((f.script.tips[f.tipCalls]?).or f.script.tips.getLast?).getD (.error (.transient "eth_blockNumber" "")),
    { f with tipCalls := f.tipCalls + 1 })

/-- Counts an attempt; how many there were so far. -/
def count (provider : Nat) (content : BatchContent) : List Tried → List Tried × Nat
  | [] => ([⟨provider, content, 1⟩], 1)
  | t :: rest =>
    if t.provider = provider ∧ t.content = content then ({ t with attempts := t.attempts + 1 } :: rest, t.attempts + 1)
    else
      let (rest, n) := count provider content rest
      (t :: rest, n)

/-- As many results more, or fewer. -/
def resized (extra : Int) (results : List (Except RpcError Unit)) : List (Except RpcError Unit) :=
  results.take (results.length + extra).toNat ++ List.replicate extra.toNat (.ok ())

def fetch (f : Fetcher) (place : Nat) (archive : Bool) (batch : List (Query Entity UInt64)) :
    BatchAnswer × Fetcher :=
  let (tried, attempt) := count place (contentOf batch) f.tried
  let f := { f with tried, fetches := f.fetches + 1 }
  let broken := f.script.transport.find? fun r => batch.any (r.hits place archive)
  match broken.filter fun r => r.times.all fun n => decide (attempt ≤ n) with
  | some r => (.error r.error, f)
  | none =>
    let results := batch.map fun q =>
      match f.script.failing.find? (·.hits place archive q) with
      | some r => Except.error r.error
      | none => .ok ()
    (.ok (resized f.script.extra results), f)

/-- Whether the work is cancelled during the last fetch. -/
def cancels (f : Fetcher) : Bool := f.script.cancelAt == some f.fetches

end Fetcher

end Backfill.Rehearsal
