import Backfill.Scenario.Values
import Backfill.Rehearsal.Scene

/-!
# Scripts in scenarios

How the scripts of a rehearsal stand in scenarios, and how what happened is written. Lists whose order
is an accident of timing are written in order of key, range and text.
-/

namespace Backfill

namespace Rehearsal

instance : Decode ScriptedClaim := .ofName fun
  | "real" => some .real
  | "error" => some .fails
  | owner => some (.heldBy owner)

instance : Decode LockScript := ⟨fun d => return ⟨← d.getD "acquires" [], ← d.getD "fail_release" false,
  ← d.getD "fail_get" false, ← d.get? "fail_record_at"⟩⟩

instance : Decode FetchRule := ⟨fun d => do
  let address : String ← d.get "address"
  return {
    address := if address = "*" then none else some address
    provider := ← d.get? "provider"
    sparesArchive := ← d.getD "not_archive" false
    range := ← d.get? "range"
    times := ← d.get? "times"
    error := ← d.getD "error" (.transient "eth_getLogs" "connection reset") }⟩

/-- An answer, or an error under a field of its own. -/
def answer? {β : Type} (read : Json → Option β) (d : Json) : Option (Except RpcError β) :=
  match d.field? "err" with
  | some e => (decode? e).map .error
  | none => (read d).map .ok

/-- A script whose newest blocks, when it has none, are those of another script. -/
def FetchScript.ofJson? (before : FetchScript) (d : Json) : Option FetchScript := do
  let tips ← match d.present? "latest" with
    | none => some before.tips
    | some (.items xs) => xs.mapM (answer? decode?)
    | some x => (answer? decode? x).map ([·])
  return ⟨tips, ← d.getD "failing" [], ← d.getD "transport" [], ← d.getD "result_delta" 0, ← d.get? "cancel_after"⟩

/-- The setup that a scenario describes for some endpoints. -/
def setup? (d : Json) (endpoints : List Endpoint) : Option Setup := do
  return {
    chain := ⟨← d.getD "chain" "bsc", ← d.getD "ms_per_block" 3000, ofMillis (← d.getD "cache_ttl_ms" 5000)⟩
    endpoints
    behaviour := ← d.getD "behaviour" {}
    shaping := ← d.getD "optimizer" {}
    stream := ← d.getD "stream" {}
    retry := ← d.getD "retry" ⟨2, 10, 100⟩
    lock := ← d.getD "lock" ⟨1000, 3600⟩ }

/-- What a call costs where the scenario does not say. -/
def plainCosts : CallCosts := [(.getLogs, 1)]

/-- The states that a scenario starts from. -/
def store? (d : Json) : Option Store := return (← d.getD "states" ([] : List ImportState)).foldl Store.put {}

/-- The date at which rehearsals take place. -/
def date : Timestamp := (Timestamp.ofParts? 1750000000 0).getD Timestamp.epoch

/-- A rehearsal that is about to begin. -/
def Scene.opening (locks : ScriptedLocks) (store : Store) : Scene := ⟨⟨date, 0⟩, { gate := { locks }, store }, {}⟩

/-! ## Results -/

def sortOn {β κ : Type} [LE κ] [DecidableLE κ] (f : β → κ) (xs : List β) : List β :=
  xs.mergeSort fun a b => decide (f a ≤ f b)

/-- A row about a range under a key. -/
structure Row where
  key : String
  range : Range UInt64
  more : List Json

instance : Encode Row := ⟨fun r => .items (encode r.key :: encode r.range :: r.more)⟩

/-- Rows in order of key, range and text. -/
def rows (xs : List Row) : Json :=
  encode (sortOn (·.key) (sortOn (·.range.first) (sortOn (·.range.last) (sortOn (fun r => (encode r).compact) xs))))

def outcomeRows (os : List (Outcome UInt64)) : Json := rows (os.map fun o => ⟨o.importKey, o.range, [encode o.success]⟩)

def reportRows (rs : List Report) : Json :=
  rows (rs.map fun r =>
    ⟨r.importKey, r.range, [encode r.address, encode r.provider, encode r.errorName, encode r.message]⟩)

instance : Encode Tried := ⟨fun t => .fields [("queries", encode t.content), ("attempts", encode t.attempts)]⟩

/-- The last part of an owner's name, which numbers the owners. -/
def ownerNumber (owner : String) : String := (owner.splitOn ":").getLastD ""

instance : Encode LockEvent := ⟨fun
  | .acquire key owner secs => .items [encode "acquire", encode key, encode (ownerNumber owner), encode secs]
  | .lastCall key => .items [encode "last_call", encode key]
  | .record key => .items [encode "record", encode key]
  | .release key owner => .items [encode "release", encode key, encode (ownerNumber owner)]⟩

instance : Encode Summary := ⟨fun s => .fields [("entities", encode s.entities), ("queries", encode s.queries),
  ("batches", encode s.batches), ("covered", encode s.covered), ("failed", encode s.failed)]⟩

/-- The states under some keys in the order of the keys, without dates. -/
def stateRows (s : Store) (keys : List String) : Json :=
  encode ((sortOn id keys.eraseDups).map fun key => (s.get? key).elim Json.null (ImportState.record false))

/-- A merge with the state it led to, or with the cause for which there is none. -/
def mergeRecord {α : Type} (m : Merge α) : Json :=
  let refused (kind message : String) : Json :=
    .fields [("key", encode m.importKey), ("error", encode kind), ("message", encode message)]
  match m.result with
  | .ok s => s.record false
  | .error (.mergeRejected cause) => refused "MergeRejected" cause.message
  | .error e => refused "other" e.message

end Rehearsal

end Backfill
