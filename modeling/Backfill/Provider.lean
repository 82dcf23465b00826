import Backfill.Settings
import Backfill.Rounding

/-!
# Providers

An endpoint of a chain, with the limits it was found to have.
-/

namespace Backfill

/-- Remote calls that are budgeted, in the order in which they are checked. -/
inductive CallKind where
  | call
  | getLogs
  | getBlockByNumber
  | getTransactionReceipt
  | getBalance
  | blockNumber
  deriving DecidableEq, Repr

namespace CallKind

def all : List CallKind :=
  [.call, .getLogs, .getBlockByNumber, .getTransactionReceipt, .getBalance, .blockNumber]

def text : CallKind → String
  | .call => "eth_call"
  | .getLogs => "eth_get_logs"
  | .getBlockByNumber => "eth_get_block_by_number"
  | .getTransactionReceipt => "eth_get_transaction_receipt"
  | .getBalance => "eth_get_balance"
  | .blockNumber => "eth_block_number"

def read? (s : String) : Option CallKind := all.find? (·.text == s)

theorem mem_all (k : CallKind) : k ∈ all := by cases k <;> decide

end CallKind

/-- The spacing that a provider asks for between two calls. -/
inductive MinDelay where
  /-- Calls may overlap. -/
  | noLimit
  | millis (ms : UInt64)
  deriving DecidableEq, Repr

/-- The spacing in nanoseconds. -/
def MinDelay.duration? : MinDelay → Option Nat
  | .noLimit => none
  | .millis ms => some (ofMillis ms.toNat)

/-- Batching and pacing limits of a provider. -/
structure Limitations where
  archive : Bool := false
  minDelay : MinDelay
  /-- The most blocks one log query may span. -/
  blockSpan : Option UInt64 := none
  /-- The most addresses one log query may list. -/
  addressBatch : Option UInt64 := none
  /-- The most calls of a kind in one batch; no number where batching was found unsafe. -/
  methods : List (CallKind × Option UInt64) := []
  /-- Stands in for the weight that follows from the delay. -/
  weight : Option UInt64 := none
  deriving DecidableEq, Repr

namespace Limitations

/-- The batch limit of a kind, if the kind was probed at all. -/
def limit? (l : Limitations) (kind : CallKind) : Option (Option UInt64) :=
  (l.methods.find? (·.1 == kind)).map (·.2)

/-- The weight of a provider without a minimum delay. -/
def unlimitedWeight : UInt64 := 10000

/-- Delays below this many milliseconds count as this many. -/
def delayFloor : Nat := 500

/-- A provider's share of the entities: a million over the delay in milliseconds, to the nearest whole
number. -/
def providerWeight (l : Limitations) : UInt64 :=
  match l.weight, l.minDelay with
  | some w, _ => w
  | none, .noLimit => unlimitedWeight
  | none, .millis ms => (Rounding.nearestUp 1000000 (max ms.toNat delayFloor)).toUInt64

end Limitations

/-- How many calls of each kind one entity costs. -/
abbrev CallCosts := List (CallKind × Nat)

def CallCosts.count (costs : CallCosts) (kind : CallKind) : Nat :=
  ((costs.find? (·.1 == kind)).map (·.2)).getD 0

end Backfill
