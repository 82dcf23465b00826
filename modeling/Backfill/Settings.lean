import Backfill.Range

/-!
# Settings

What a pass looks at, how queries are shaped, and how calls are paced and repeated. Durations are in
nanoseconds unless a name says otherwise.
-/

namespace Backfill

/-- Which part of a chain's history a pass looks at. -/
inductive ImportMode where
  /-- Only the newest window of blocks. -/
  | recent
  /-- Everything since a contract's creation that is not covered yet. -/
  | historical
  deriving DecidableEq, Repr

def ImportMode.text : ImportMode → String
  | .recent => "recent"
  | .historical => "historical"

def ImportMode.read? : String → Option ImportMode
  | "recent" => some .recent
  | "historical" => some .historical
  | _ => none

/-- Which entities' historical passes leave the newest window to recent passes. -/
inductive SkipWindow where
  | all
  | none
  /-- Entities that still change. -/
  | live
  /-- Entities at the end of their life. -/
  | eol
  deriving DecidableEq, Repr

namespace SkipWindow

def appliesTo (live : Bool) : SkipWindow → Bool
  | .all => true
  | .none => false
  | .live => live
  | .eol => !live

def text : SkipWindow → String
  | .all => "all"
  | .none => "none"
  | .live => "live"
  | .eol => "eol"

def read? : String → Option SkipWindow
  | "all" => some .all
  | "none" => some .none
  | "live" => some .live
  | "eol" => some .eol
  | _ => Option.none

end SkipWindow

/-- How the block axis is cut into slices. -/
inductive IndexKind where
  /-- Clusters of missing ranges that lie close together. -/
  | blob
  /-- A grid of blocks estimated from the tip at a fixed interval of time. -/
  | blockList
  deriving DecidableEq, Repr

def IndexKind.text : IndexKind → String
  | .blob => "blob"
  | .blockList => "block-list"

def IndexKind.read? : String → Option IndexKind
  | "blob" => some .blob
  | "block-list" => some .blockList
  | _ => none

/-- Nanoseconds in so many milliseconds. -/
def ofMillis (ms : Nat) : Nat := ms * 1000000

/-- Nanoseconds in so many seconds. -/
def ofSeconds (s : Nat) : Nat := s * 1000000000

/-- How a pass turns import states into ranges to fetch. -/
structure Behaviour where
  mode : ImportMode := .recent
  /-- Blocks kept away from the tip, where a reorganisation may still replace them. -/
  wait : UInt64 := 0
  force : Option (Range UInt64) := none
  skip : SkipWindow := .all
  ignoreState : Bool := false
  /-- Inverted ranges are errors. -/
  strict : Bool := false
  /-- Passes are repeated, their starts at least this long apart. -/
  repeatEvery : Option Nat := none
  pollEvery : Nat := ofSeconds 300

/-- How queries are shaped before a provider's limits apply. -/
structure Shaping where
  maxAddresses : Nat := 50
  maxBlocks : Nat := 10000
  maxQueries : Nat := 10
  mergeGap : Nat := 1000
  sliceSize : Nat := 10000
  index : IndexKind := .blob
  sampling : Nat := ofSeconds 900

/-- Buffers and parallelism of a worker. -/
structure Stream where
  maxTake : Nat := 500
  concurrency : Nat := 10
  maxBuffer : Nat := 100
  maxWaitMs : Nat := 1000

/-- How often a failed call is made again, and after which delays. -/
structure Retry where
  attempts : Nat := 5
  baseMs : Nat := 500
  maxMs : Nat := 30000

namespace Retry

/-- Calls made at most: a limit of 0 counts as 1. -/
def maxAttempts (r : Retry) : Nat := max r.attempts 1

/-- The delay in milliseconds after `made` failed calls: doubling from the base up to the limit. -/
def delayMs (r : Retry) (made : Nat) : Nat :=
  min (r.baseMs * Nat.pow 2 (min (made - 1) 64)) (max r.maxMs r.baseMs)

end Retry

/-- Timings of the lock around paced calls. -/
structure LockTimings where
  timeoutMs : Nat := 60000
  expirySeconds : Nat := 120

/-- Settings shared by all workers of a chain. -/
structure ChainSettings where
  chain : String
  msPerBlock : Nat
  cacheTtl : Nat

end Backfill
