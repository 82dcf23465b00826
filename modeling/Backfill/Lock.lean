import Backfill.Keyed
import Backfill.Timestamp
import Backfill.Error

/-!
# Locks

A lock belongs to an owner until it is released or expires, so a holder that died blocks nobody for
ever. Next to the locks stands a register of the last call made under each key, which never moves back.
-/

namespace Backfill

/-- A lock on a key. -/
structure Lease where
  owner : String
  expires : Timestamp
  deriving DecidableEq

/-- The answer to an attempt to take a lock. -/
inductive Claim where
  | acquired
  | heldBy (owner : String)
  deriving DecidableEq, Repr

/-- The answer to an attempt to give a lock back. -/
inductive Release where
  | released
  | notFound
  deriving DecidableEq, Repr

/-- The locks and the register of calls. -/
structure Locks where
  leases : Keyed Lease := {}
  calls : Keyed Timestamp := {}

namespace Locks

/-- A lease that has not expired. -/
def current? (l : Locks) (now : Timestamp) (key : String) : Option Lease :=
  (l.leases.get? key).filter fun lease => Axis.before now lease.expires

/-- The owner of a lock that has not expired. -/
def owner? (l : Locks) (now : Timestamp) (key : String) : Option String := (l.current? now key).map (·.owner)

def take (l : Locks) (now : Timestamp) (key owner : String) (expirySeconds : Nat) : Locks :=
  { l with leases := l.leases.set key ⟨owner, now.after (expirySeconds * giga)⟩ }

/-- Takes the lock unless somebody else holds it; its own holder takes it anew. -/
def acquire (l : Locks) (now : Timestamp) (key owner : String) (expirySeconds : Nat) : Claim × Locks :=
  match l.current? now key with
  | some lease =>
    if lease.owner = owner then (.acquired, l.take now key owner expirySeconds)
    else (.heldBy lease.owner, l)
  | none => (.acquired, l.take now key owner expirySeconds)

/-- Gives the lock back. It is an error when somebody else holds it. -/
def release (l : Locks) (now : Timestamp) (key owner : String) : Except LockError Release × Locks :=
  match l.leases.get? key with
  | none => (.ok .notFound, l)
  | some lease =>
    if lease.owner = owner then (.ok .released, { l with leases := l.leases.erase key })
    else if lease.expires ≤ now then (.ok .notFound, l)
    else (.error (.notOwner key lease.owner), l)

/-- The last call under a key. -/
def lastCall? (l : Locks) (key : String) : Option Timestamp := l.calls.get? key

/-- Registers a call. -/
def record (l : Locks) (key : String) (at' : Timestamp) : Locks :=
  { l with calls := l.calls.alter key fun known => known.elim at' (Axis.later · at') }

end Locks

/-- A service of locks, which may fail. -/
class LockService (σ : Type) where
  acquire : Timestamp → String → String → Nat → σ → Except LockError Claim × σ
  release : Timestamp → String → String → σ → Except LockError Release × σ
  lastCall : String → σ → Except LockError (Option Timestamp) × σ
  record : String → Timestamp → σ → Except LockError Unit × σ

instance : LockService Locks where
  acquire now key owner expirySeconds l := (l.acquire now key owner expirySeconds).map .ok id
  release now key owner l := l.release now key owner
  lastCall key l := (.ok (l.lastCall? key), l)
  record key at' l := (.ok (), l.record key at')

/-- Milliseconds between two attempts to take a lock that somebody holds. -/
def lockPollMs : Nat := 50

/-- What follows from an attempt to take a lock when the timer must not run past a deadline. -/
inductive Attempt where
  | acquired
  | again
  | failed (cause : LockError)
  deriving DecidableEq, Repr

/-- Another attempt follows as long as the deadline has not been reached. -/
def Attempt.ofClaim (key : String) (timeoutMs timer deadline : Nat) : Except LockError Claim → Attempt
  | .ok .acquired => .acquired
  | .ok (.heldBy _) => if timer < deadline then .again else .failed (.timeout key timeoutMs)
  | .error e => .failed e

theorem Attempt.lt_of_ofClaim_eq_again {key : String} {timeoutMs timer deadline : Nat} {claim : Except LockError Claim}
    (h : ofClaim key timeoutMs timer deadline claim = .again) : timer < deadline := by
  cases claim with
  | error e => cases h
  | ok claim =>
    cases claim with
    | acquired => cases h
    | heldBy other =>
      simp only [ofClaim] at h
      split at h
      · assumption
      · cases h

/-! ## Waiting -/

/-- What goes on around a caller that waits for a lock. -/
structure Surroundings (σ : Type) where
  /-- The date when the caller has waited for so many milliseconds. -/
  date : Nat → Timestamp
  /-- What others do to the locks between two attempts, of which the earlier one has this number. -/
  others : Nat → σ → σ

/-- How it ends. -/
structure Waited (σ : Type) where
  result : Except LockError Unit
  /-- The time from the first attempt to the last one. -/
  waitedMs : Nat
  locks : σ

namespace LockService

variable {σ : Type} [LockService σ]

/-- Attempts to take a lock until it is taken or the time is over, from the attempt with this number on. -/
def acquireFrom (s : Surroundings σ) (key owner : String) (timeoutMs expirySeconds number : Nat) (locks : σ) :
    Waited σ :=
  let waitedMs := number * lockPollMs
  let answer := acquire (s.date waitedMs) key owner expirySeconds locks
  match h : Attempt.ofClaim key timeoutMs waitedMs timeoutMs answer.1 with
  | .acquired => ⟨.ok (), waitedMs, answer.2⟩
  | .failed cause => ⟨.error cause, waitedMs, answer.2⟩
  | .again => acquireFrom s key owner timeoutMs expirySeconds (number + 1) (s.others number answer.2)
termination_by timeoutMs - number * lockPollMs
decreasing_by
  have hmore : number * lockPollMs < timeoutMs := Attempt.lt_of_ofClaim_eq_again h
  have hpoll : 0 < lockPollMs := by decide
  rw [Nat.succ_mul]
  omega

/-- All attempts, numbered from 0. -/
def acquireWithin (s : Surroundings σ) (key owner : String) (timeoutMs expirySeconds : Nat) (locks : σ) : Waited σ :=
  acquireFrom s key owner timeoutMs expirySeconds 0 locks

end LockService

end Backfill
