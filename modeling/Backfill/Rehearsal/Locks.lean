import Backfill.Lock

/-!
# Scripted locks

A lock service in front of the locks in memory that fails as a script says and keeps a journal.
-/

namespace Backfill.Rehearsal

/-- What an attempt to take a lock is answered. -/
inductive ScriptedClaim where
  /-- What the locks in memory say. -/
  | real
  | fails
  | heldBy (owner : String)

/-- Which operations fail. -/
structure LockScript where
  /-- The answers to the first attempts to take a lock. -/
  claims : List ScriptedClaim := []
  failRelease : Bool := false
  failLastCall : Bool := false
  /-- The number of the registration that fails, counted from 1. -/
  failRecordAt : Option Nat := none

/-- One use of the service. -/
inductive LockEvent where
  | acquire (key owner : String) (expirySeconds : Nat)
  | lastCall (key : String)
  | record (key : String)
  | release (key owner : String)

structure ScriptedLocks where
  locks : Locks := {}
  script : LockScript := {}
  /-- Registrations so far. -/
  records : Nat := 0
  /-- Oldest first. -/
  journal : List LockEvent := []

namespace ScriptedLocks

def noted (l : ScriptedLocks) (e : LockEvent) : ScriptedLocks := { l with journal := l.journal ++ [e] }

/-- The error of everything that fails by script. -/
def failure (key : String) : LockError := .alreadyHeld key "someone"

def acquire (now : Timestamp) (key owner : String) (expirySeconds : Nat) (l : ScriptedLocks) :
    Except LockError Claim × ScriptedLocks :=
  let l := l.noted (.acquire key owner expirySeconds)
  let rest := { l with script := { l.script with claims := l.script.claims.tail } }
  match l.script.claims.headD .real with
  | .fails => (.error (failure key), rest)
  | .heldBy other => (.ok (.heldBy other), rest)
  | .real =>
    let (claim, locks) := l.locks.acquire now key owner expirySeconds
    (.ok claim, { rest with locks })

def release (now : Timestamp) (key owner : String) (l : ScriptedLocks) :
    Except LockError Release × ScriptedLocks :=
  let l := l.noted (.release key owner)
  if l.script.failRelease then (.error (failure key), l)
  else
    let (answer, locks) := l.locks.release now key owner
    (answer, { l with locks })

def lastCall (key : String) (l : ScriptedLocks) : Except LockError (Option Timestamp) × ScriptedLocks :=
  let l := l.noted (.lastCall key)
  (if l.script.failLastCall then .error (failure key) else .ok (l.locks.lastCall? key), l)

def record (key : String) (at' : Timestamp) (l : ScriptedLocks) : Except LockError Unit × ScriptedLocks :=
  let l := { l.noted (.record key) with records := l.records + 1 }
  if l.script.failRecordAt = some l.records then (.error (failure key), l)
  else (.ok (), { l with locks := l.locks.record key at' })

instance : LockService ScriptedLocks := ⟨acquire, release, lastCall, record⟩

end ScriptedLocks

/-- Waits for a lock that nobody else uses meanwhile, with the number of attempts. The date stands still. -/
def acquireWithin {σ : Type} [LockService σ] (now : Timestamp) (key owner : String)
    (timeoutMs expirySeconds : Nat) (locks : σ) : (Except LockError Unit × Nat) × σ :=
  let waited := LockService.acquireWithin ⟨fun _ => now, fun _ => id⟩ key owner timeoutMs expirySeconds locks
  ((waited.result, waited.waitedMs / lockPollMs + 1), waited.locks)

end Backfill.Rehearsal
