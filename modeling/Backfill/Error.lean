import Backfill.Range

/-!
# Errors

One inductive type per area, each with its message. Errors of foreign formats and servers carry no
text of their own here, as their wording is not this library's.
-/

namespace Backfill

/-- Configuration and programming errors; never retried. -/
inductive ConfigError where
  | invalidWeights (detail : String)
  | missingLimitation (method provider : String)
  | inconsistentRange (importKey detail : String)
  | rangeKindMismatch (importKey expected : String)
  | invalidProvidersFile (detail : String)
  | missingArgument (name : String)
  deriving DecidableEq, Repr

namespace ConfigError

def message : ConfigError → String
  | invalidWeights d => s!"Invalid weight configuration: {d}"
  | missingLimitation m p => s!"Missing RPC limitation for {m} on {p}"
  | inconsistentRange k d => s!"Inconsistent range for {k}: {d}"
  | rangeKindMismatch k e => s!"Import state {k} does not store {e} ranges"
  | invalidProvidersFile d => s!"Invalid providers file: {d}"
  | missingArgument n => s!"Missing argument: {n}"

def name : ConfigError → String
  | invalidWeights _ => "InvalidWeights"
  | missingLimitation .. => "MissingLimitation"
  | inconsistentRange .. => "InconsistentRange"
  | rangeKindMismatch .. => "RangeKindMismatch"
  | invalidProvidersFile _ => "InvalidProvidersFile"
  | missingArgument _ => "MissingArgument"

end ConfigError

/-- Errors of the lock service. -/
inductive LockError where
  | alreadyHeld (key owner : String)
  | timeout (key : String) (timeoutMs : Nat)
  | notOwner (key owner : String)
  deriving DecidableEq, Repr

namespace LockError

def message : LockError → String
  | alreadyHeld k o => s!"Lock {k} is held by {o}"
  | timeout k ms => s!"Timed out after {ms}ms waiting for lock {k}"
  | notOwner k o => s!"Lock {k} is not owned by {o}"

def name : LockError → String
  | alreadyHeld .. => "LockAlreadyHeld"
  | timeout .. => "LockTimeout"
  | notOwner .. => "NotOwner"

end LockError

/-- Errors of the import state store. -/
inductive DatabaseError where
  /-- The server's address is unreadable or nobody answers there. -/
  | server
  | notFound (importKey : String)
  | mergeRejected (cause : ConfigError)
  deriving DecidableEq, Repr

namespace DatabaseError

def message : DatabaseError → String
  | server => "Mongo error: "
  | notFound k => s!"Import state not found: {k}"
  | mergeRejected e => s!"Import state merge rejected: {e.message}"

def name : DatabaseError → String
  | server => "MongoError"
  | notFound _ => "ImportStateNotFound"
  | mergeRejected _ => "MergeRejected"

end DatabaseError

/-- Errors of remote calls. -/
inductive RpcError where
  /-- Network, timeout and rate limit failures. -/
  | transient (operation detail : String)
  /-- The provider has pruned the state that the call needs. -/
  | archiveNodeNeeded (operation detail : String)
  | configuration (cause : ConfigError)
  | invalidResponse (operation detail : String)
  | lock (cause : LockError)
  | retriesExhausted (attempts : Nat) (lastError : String)
  deriving DecidableEq, Repr

namespace RpcError

def message : RpcError → String
  | transient o d => s!"Transient error during {o}: {d}"
  | archiveNodeNeeded o d => s!"Archive node needed for {o}: {d}"
  | configuration e => s!"Configuration error: {e.message}"
  | invalidResponse o d => s!"Invalid response for {o}: {d}"
  | lock e => s!"Lock error: {e.message}"
  | retriesExhausted n e => s!"Giving up after {n} attempts: {e}"

def name : RpcError → String
  | transient .. => "transient"
  | archiveNodeNeeded .. => "archive_node_needed"
  | configuration _ => "configuration"
  | invalidResponse .. => "invalid_response"
  | lock _ => "lock"
  | retriesExhausted .. => "retries_exhausted"

/-- Errors that another attempt may mend. -/
def retryable : RpcError → Bool
  | transient .. => true
  | invalidResponse .. => true
  | lock _ => true
  | _ => false

end RpcError

/-- Errors of the program as a whole. -/
inductive IndexerError where
  | config (cause : ConfigError)
  | database (cause : DatabaseError)
  | lock (cause : LockError)
  /-- The cache's server does not answer. -/
  | cache
  | rpc (cause : RpcError)
  | entitySource (detail : String)
  | worker (detail : String)
  /-- An error in the words of whoever noticed it. -/
  | other (detail : String)
  deriving DecidableEq, Repr

namespace IndexerError

def message : IndexerError → String
  | config e => s!"Configuration error: {e.message}"
  | database e => s!"Database error: {e.message}"
  | lock e => s!"Lock error: {e.message}"
  | cache => "Cache error: Mongo error: "
  | rpc e => s!"RPC error: {e.message}"
  | entitySource d => s!"Entity source error: {d}"
  | worker d => s!"Worker error: {d}"
  | other d => s!"Indexer error: {d}"

def name : IndexerError → String
  | config _ => "ConfigError"
  | database _ => "DatabaseError"
  | lock _ => "LockError"
  | cache => "CacheError"
  | rpc _ => "RpcError"
  | entitySource _ => "EntitySourceError"
  | worker _ => "WorkerError"
  | other _ => "OtherError"

/-- What lies behind the error, if it has a cause of its own. -/
def cause? : IndexerError → Option String
  | config e => some e.message
  | database e => some e.message
  | lock e => some e.message
  | cache => some "Mongo error: "
  | rpc e => some e.message
  | entitySource _ => none
  | worker _ => none
  | other _ => none

end IndexerError

end Backfill
