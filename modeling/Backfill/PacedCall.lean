import Backfill.Clock
import Backfill.Lock
import Backfill.Log
import Backfill.Settings

/-!
# Paced calls

A call to a provider is attempted until it succeeds, fails for good, or has used up its attempts. An
attempt at a provider with a minimum delay takes the provider's lock, lets the delay since the last call
pass, registers the call before and after it is made, and gives the lock back. The physical call itself
is made outside: a call stops at the stage `calling` until its answer is handed in.
-/

namespace Backfill

/-- The rules for calls of one kind to one provider. -/
structure CallTerms where
  /-- The provider's lock key. -/
  provider : String
  operation : String
  minDelay : Option Nat
  retry : Retry
  lock : LockTimings

/-- The key of the provider's lock. -/
def CallTerms.lockName (t : CallTerms) : String := "rpc:" ++ t.provider

/-- What all calls share: the lock service, and how many owners have asked for a lock, which stays below 2⁶⁴. -/
structure Gate (σ : Type) where
  locks : σ
  owners : Nat := 0

/-- Where the present attempt stands. -/
inductive CallStage (β : Type) where
  /-- It has not begun. -/
  | resting
  /-- It asks for the lock until the timer reaches the deadline. -/
  | asking (owner : String) (deadline : Nat)
  /-- It holds the lock and looks for the last call. -/
  | holding (owner : String)
  /-- It lets the delay pass and registers the call. -/
  | spacing (owner : String)
  /-- The physical call is under way, under the lock of the owner if there is one. -/
  | calling (owner : Option String)
  /-- It registers the end of the call. -/
  | closing (owner : String) (answer : Except RpcError β)
  /-- It gives the lock back. -/
  | leaving (owner : String) (result : Except RpcError β)
  | finished (result : Except RpcError β)

/-- A call with its attempts. -/
structure PacedCall (β : Type) where
  stage : CallStage β := .resting
  /-- Attempts that failed. -/
  failed : Nat := 0
  /-- The reading of the timer before which nothing happens. -/
  wake : Nat

namespace PacedCall

variable {β σ : Type}

def target : String := "vault_indexer::worker::executor"

/-- Whether the physical call is under way. -/
def isCalling (c : PacedCall β) : Bool :=
  match c.stage with
  | .calling _ => true
  | _ => false

def result? (c : PacedCall β) : Option (Except RpcError β) :=
  match c.stage with
  | .finished r => some r
  | _ => none

/-- The reading of the timer for which the call waits, if it waits for time. -/
def wake? (c : PacedCall β) : Option Nat :=
  match c.stage with
  | .calling _ => none
  | .finished _ => none
  | _ => some c.wake

/-- Whether the call has something to do at this reading of the timer. -/
def isDue (timer : Nat) (c : PacedCall β) : Bool := c.wake?.any fun wake => decide (wake ≤ timer)

/-! ## The end of an attempt -/

/-- The entry about a failed attempt after which another one follows. -/
def retryEntry (t : CallTerms) (delayMs : Nat) (e : RpcError) : Log.Entry where
  level := .warn
  target := target
  message := "RPC call failed, retrying"
  fields := [("provider", .worded t.provider), ("operation", .text t.operation), ("delay_ms", .count delayMs),
    ("error", .worded e.message)]

/-- The entry about an error that no attempt mends. -/
def refusedEntry (t : CallTerms) (e : RpcError) : Log.Entry where
  level := .error
  target := target
  message := "RPC call failed, not retrying"
  fields := [("provider", .worded t.provider), ("operation", .text t.operation), ("error_type", .text e.name),
    ("error", .worded e.message)]

/-- The entry about the last attempt. -/
def exhaustedEntry (t : CallTerms) (e : RpcError) : Log.Entry where
  level := .warn
  target := target
  message := "Giving up"
  fields := [("provider", .worded t.provider), ("operation", .text t.operation),
    ("attempts", .count t.retry.maxAttempts), ("error", .worded e.message)]

/-- What follows when an attempt ends. -/
def settle (t : CallTerms) (timer : Nat) (c : PacedCall β) (result : Except RpcError β) :
    PacedCall β × List Log.Entry :=
  match result with
  | .ok x => ({ c with stage := .finished (.ok x) }, [])
  | .error e =>
    if !e.retryable then ({ c with stage := .finished (.error e) }, [refusedEntry t e])
    else if c.failed + 1 < t.retry.maxAttempts then
      let delayMs := t.retry.delayMs (c.failed + 1)
      ({ stage := .resting, failed := c.failed + 1, wake := timer + ofMillis delayMs }, [retryEntry t delayMs e])
    else
      ({ c with stage := .finished (.error (.retriesExhausted t.retry.maxAttempts e.message)) },
        [exhaustedEntry t e])

/-! ## Steps -/

/-- The answer of the physical call counts before a failure to register its end. -/
def combine (answer : Except RpcError β) (registered : Except LockError Unit) : Except RpcError β :=
  match answer, registered with
  | .error e, _ => .error e
  | .ok _, .error e => .error (.lock e)
  | .ok x, .ok () => .ok x

/-- The entry about the delay that is left. -/
def waitEntry (t : CallTerms) (wait : Nat) : Log.Entry where
  level := .trace
  target := target
  message := "Waiting for provider delay"
  fields := [("key", .text t.lockName), ("wait_ms", .count (wait / 1000000))]

/-- The entry about a lock that could not be given back; it expires. -/
def keptEntry (t : CallTerms) (e : LockError) : Log.Entry where
  level := .warn
  target := target
  message := "Failed to release provider lock"
  fields := [("key", .text t.lockName), ("error", .worded e.message)]

variable [LockService σ]

/-- The stage after an attempt to take the lock, and the reading of the timer to wait for. -/
def asked (t : CallTerms) (timer : Nat) (owner : String) (deadline : Nat) (c : PacedCall β)
    (claim : Except LockError Claim) : PacedCall β × List Log.Entry :=
  match Attempt.ofClaim t.lockName t.lock.timeoutMs timer deadline claim with
  | .acquired => ({ c with stage := .holding owner }, [])
  | .again => ({ c with stage := .asking owner deadline, wake := timer + ofMillis lockPollMs }, [])
  | .failed e => settle t timer c (.error (.lock e))

/-- Waits for what is left of the delay since the last call. -/
def spaced (t : CallTerms) (clock : Clock) (owner : String) (c : PacedCall β)
    (last : Except LockError (Option Timestamp)) : PacedCall β × List Log.Entry :=
  match last with
  | .error e => ({ c with stage := .leaving owner (.error (.lock e)) }, [])
  | .ok last =>
    let wait := last.elim 0 fun last => Timestamp.remainingDelay last clock.date (t.minDelay.getD 0)
    ({ c with stage := .spacing owner, wake := clock.timer + wait },
      if wait = 0 then [] else [waitEntry t wait])

/-- What the call does when the timer has reached its `wake`. A turn asks the lock service at most once and has the
answer at once. So the physical call begins in the turn that registers it; where the service takes time to answer,
these are two turns, and others may act in between. -/
def step (t : CallTerms) (clock : Clock) (c : PacedCall β) (gate : Gate σ) :
    PacedCall β × Gate σ × List Log.Entry :=
  match c.stage with
  | .resting =>
    if t.minDelay.isNone then ({ c with stage := .calling none }, gate, [])
    else
      ({ c with stage := .asking s!"indexer:{gate.owners}" (clock.timer + ofMillis t.lock.timeoutMs) },
        { gate with owners := gate.owners + 1 }, [])
  | .asking owner deadline =>
    let (claim, locks) := LockService.acquire clock.date t.lockName owner t.lock.expirySeconds gate.locks
    let (c, entries) := asked t clock.timer owner deadline c claim
    (c, { gate with locks }, entries)
  | .holding owner =>
    let (last, locks) := LockService.lastCall t.lockName gate.locks
    let (c, entries) := spaced t clock owner c last
    (c, { gate with locks }, entries)
  | .spacing owner =>
    let (registered, locks) := LockService.record t.lockName clock.date gate.locks
    -- registered and begun in one turn
    let stage := match registered with
      | .ok () => .calling (some owner)
      | .error e => .leaving owner (.error (.lock e))
    ({ c with stage }, { gate with locks }, [])
  | .closing owner answer =>
    let (registered, locks) := LockService.record t.lockName clock.date gate.locks
    ({ c with stage := .leaving owner (combine answer registered) }, { gate with locks }, [])
  | .leaving owner result =>
    let (released, locks) := LockService.release clock.date t.lockName owner gate.locks
    let (c, entries) := settle t clock.timer c result
    let complaints := match released with
      | .ok _ => []
      | .error e => [keptEntry t e]
    (c, { gate with locks }, complaints ++ entries)
  | .calling _ => (c, gate, [])
  | .finished _ => (c, gate, [])

/-- Hands in the answer of the physical call. -/
def answered (t : CallTerms) (timer : Nat) (answer : Except RpcError β) (c : PacedCall β) :
    PacedCall β × List Log.Entry :=
  match c.stage with
  | .calling none => settle t timer c answer
  | .calling (some owner) => ({ c with stage := .closing owner answer }, [])
  | _ => (c, [])

end PacedCall

end Backfill
