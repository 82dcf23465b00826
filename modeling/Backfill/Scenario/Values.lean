import Backfill.Document.Codec
import Backfill.Provider.Endpoint
import Backfill.Query
import Backfill.Remote.Message
import Backfill.Timestamp.Text
import Backfill.ImportState.Record

/-!
# Values in scenarios

A scenario is a JSON document that says what the engine starts from and what its surroundings do. This
is how the values of the domain stand in scenarios and in their results. Most fields may be left out.
-/

namespace Backfill

instance : Decode Timestamp := ⟨Timestamp.ofDocument?⟩
instance : Encode Timestamp := ⟨Timestamp.toJson⟩

instance {α : Type} [Decode α] : Decode (Range α) := ⟨fun d => (decode? d : Option (α × α)).map fun r => ⟨r.1, r.2⟩⟩
instance {α : Type} [Encode α] : Encode (Range α) := ⟨fun r => encode (r.first, r.last)⟩

/-- A length of time in nanoseconds, written in seconds and nanoseconds. -/
structure Duration where
  nanos : Nat

instance : Decode Duration := ⟨fun d => do
  let nanos ← d.getD "nanos" 0
  if nanos < giga then return ⟨(← d.getD "secs" 0) * giga + nanos⟩ else none⟩
instance : Encode Duration := ⟨fun d =>
  .fields [("secs", encode (d.nanos / giga)), ("nanos", encode (d.nanos % giga))]⟩

/-! ## Errors -/

/-- An error by its kind, with its message where the wording is this library's. -/
def failure (kind : String) (message : Option String) : Json :=
  .fields (("error", encode kind) :: message.toList.map fun m => ("message", encode m))

/-- Whether the detail of a providers file's error is worded here. -/
def ownDetail (detail : String) : Bool :=
  detail.startsWith "no provider configured for chain " || detail == "ms_per_block_estimate must be positive" ||
    detail.startsWith "no client for "

/-- Whether the error is worded here from end to end. -/
def ConfigError.isOwn : ConfigError → Bool
  | .invalidProvidersFile detail => ownDetail detail
  | _ => true

/-- Whether the error is worded here from end to end. -/
def IndexerError.isOwn : IndexerError → Bool
  | .other _ => false
  | .config e => e.isOwn
  | .database .server => false
  | .cache => false
  | _ => true

def own (isOwn : Bool) (message : String) : Option String := if isOwn then some message else none

instance : Encode ConfigError := ⟨fun e => failure e.name (own e.isOwn e.message)⟩
instance : Encode LockError := ⟨fun e => failure e.name (some e.message)⟩
instance : Encode DatabaseError := ⟨fun e => failure e.name (some e.message)⟩
instance : Encode RpcError := ⟨fun e => failure e.name (some e.message)⟩
instance : Encode IndexerError := ⟨fun e => failure e.name (own e.isOwn e.message)⟩

/-- A provider's message, or an error of a kind with its detail. -/
instance : Decode RpcError := ⟨fun d => do
  let operation := "eth_getLogs"
  match d.text? with
  | some message => return Remote.errorOfMessage operation message
  | none =>
    let detail ← d.getD "message" "m"
    match (← d.get "kind" : String) with
    | "transient" => return .transient operation detail
    | "archive" => return .archiveNodeNeeded operation detail
    | "invalid" => return .invalidResponse operation detail
    | "config" => return .configuration (.missingArgument detail)
    | "lock" => return .lock (.timeout detail 7)
    | "exhausted" => return .retriesExhausted 3 detail
    | _ => none⟩

/-- A value, or an error. -/
def valueOr {ε β : Type} [Encode ε] [Encode β] : Except ε β → Json
  | .ok x => encode x
  | .error e => encode e

/-! ## Settings -/

instance : Decode ImportMode := .ofName ImportMode.read?
instance : Decode SkipWindow := .ofName SkipWindow.read?
instance : Decode IndexKind := .ofName IndexKind.read?

instance : Decode Behaviour := ⟨fun d => return {
  mode := ← d.getD "mode" .recent
  wait := ← d.getD "wait" 0
  force := ← d.get? "force"
  skip := ← d.getD "skip" .all
  ignoreState := ← d.getD "ignore" false
  strict := ← d.getD "strict" false
  repeatEvery := (← d.get? "repeat_ms").map ofMillis
  pollEvery := ofMillis (← d.getD "poll_ms" 300000) }⟩

instance : Encode Behaviour := ⟨fun b => .fields [("mode", encode b.mode.text), ("wait", encode b.wait),
  ("force", encode b.force), ("skip", encode b.skip.text), ("ignore", encode b.ignoreState),
  ("strict", encode b.strict), ("repeat_ms", encode (b.repeatEvery.map Duration.mk)),
  ("poll", encode (Duration.mk b.pollEvery))]⟩

instance : Decode Shaping := ⟨fun d => return {
  maxAddresses := ← d.getD "max_addresses" 50
  maxBlocks := ← d.getD "max_blocks" 10000
  maxQueries := ← d.getD "max_queries" 10
  mergeGap := ← d.getD "merge_gap" 1000
  sliceSize := ← d.getD "slice" 10000
  index := ← d.getD "index" .blob
  sampling := ofMillis (← d.getD "sampling_ms" 900000) }⟩

instance : Encode Shaping := ⟨fun s => .fields [("max_addresses", encode s.maxAddresses),
  ("max_blocks", encode s.maxBlocks), ("max_queries", encode s.maxQueries), ("merge_gap", encode s.mergeGap),
  ("slice", encode s.sliceSize), ("index", encode s.index.text), ("sampling", encode (Duration.mk s.sampling))]⟩

instance : Decode Stream := ⟨fun d => return ⟨← d.getD "max_take" 500, ← d.getD "concurrency" 10,
  ← d.getD "max_buffer" 100, ← d.getD "max_wait_ms" 1000⟩⟩

instance : Encode Stream := ⟨fun s => .fields [("max_take", encode s.maxTake),
  ("concurrency", encode s.concurrency), ("max_buffer", encode s.maxBuffer), ("max_wait_ms", encode s.maxWaitMs)]⟩

instance : Decode Retry := ⟨fun d => return ⟨(← d.getD "attempts" (2 : UInt32)).toNat, ← d.getD "base_ms" 10,
  ← d.getD "max_ms" 100⟩⟩

instance : Encode Retry := ⟨fun r => .fields [("attempts", encode r.attempts), ("base_ms", encode r.baseMs),
  ("max_ms", encode r.maxMs)]⟩

instance : Decode LockTimings := ⟨fun d => return ⟨← d.getD "timeout_ms" 1000, ← d.getD "expiry" 3600⟩⟩

instance : Encode LockTimings := ⟨fun l => .fields [("timeout_ms", encode l.timeoutMs),
  ("expiry", encode l.expirySeconds)]⟩

/-! ## Providers -/

instance : Decode Limitations := ⟨Limitations.ofDocument?⟩

instance : Encode Limitations := ⟨fun l => .fields [("archive", encode l.archive), ("min_delay", l.minDelay.toJson),
  ("min_delay_duration", encode (l.minDelay.duration?.map Duration.mk)), ("block_span", encode l.blockSpan),
  ("address_batch", encode l.addressBatch), ("methods", l.methodsToJson), ("weight", encode l.weight),
  ("provider_weight", encode l.providerWeight)]⟩

instance : Decode Endpoint := ⟨fun d => do
  let url : String ← d.get "url"
  return ⟨← Url.read? url, ← d.getD "limitations" { minDelay := .noLimit }⟩⟩

instance : Encode Endpoint := ⟨fun e => .fields [("url", encode e.url.text), ("lock_key", encode e.lockKey),
  ("limitations", encode e.limitations)]⟩

/-- Costs by the names of calls. -/
def CallCosts.ofJson? : Json → Option CallCosts
  | .fields xs => xs.mapM fun (name, d) => return (← CallKind.read? name, (← decode? d : UInt32).toNat)
  | _ => none

/-! ## Entities and import states -/

instance {α : Type} [Decode α] : Decode (Coverage α) := ⟨fun d =>
  return ⟨← d.getD "covered" [], ← d.getD "retry" [], ← d.getD "last" Timestamp.epoch⟩⟩

/-- The payload that a record describes. -/
def ImportData.ofRecord? (d : Json) (key address : String) : Option ImportData := do
  let type ← d.getD "type" ""
  if type = priceFeedTag then return .priceFeed ⟨key, Timestamp.epoch, ← decode? d⟩
  let feed := (ProductFeed.all.find? (·.tag == type)).getD .investment
  return .product feed ⟨key, "bsc", address, ← d.getD "created" 0, Timestamp.epoch, ← decode? d⟩

/-- An entity by its key alone, or a record. -/
instance : Decode Entity := ⟨fun d => do
  let d := if d.text?.isSome then .fields [("key", d)] else d
  let key ← d.get "key"
  let address ← d.getD "address" ("0x" ++ key)
  let data ← ImportData.ofRecord? d key address
  return ⟨key, address, ← d.getD "live" true, data.fresh Timestamp.epoch⟩⟩

instance : Decode ImportState := ⟨fun d => do
  let key ← d.get "key"
  return ⟨key, ← ImportData.ofRecord? d key ("0x" ++ key)⟩⟩

/-- What a record says about a coverage, with the date of the last import or without it. -/
def Coverage.record {α : Type} [Encode α] (dated : Bool) (c : Coverage α) : List (String × Json) :=
  [("covered", encode c.covered), ("retry", encode c.toRetry)] ++
    if dated then [("last", encode c.lastImport)] else []

/-- An import state as a record, with the date of the last import or without it. -/
def ImportState.record (dated : Bool) (s : ImportState) : Json :=
  .fields ([("key", encode s.importKey), ("type", encode s.data.tag)] ++
    match s.data with
    | .product _ data => ("created", encode data.createdAtBlock) :: data.ranges.record dated
    | .priceFeed data => data.ranges.record dated)

instance : Encode ImportState := ⟨ImportState.record true⟩

instance {α : Type} [Decode α] : Decode (Outcome α) := ⟨fun d =>
  return ⟨← d.get "key", ← d.get "range", ← d.get "ok"⟩⟩

/-! ## Queries -/

instance : Decode (Need UInt64) := ⟨fun
  | .items xs => return .parts (← xs.mapM decode?)
  | _ => some .whole⟩

instance : Decode (Query Entity UInt64) := ⟨fun d => do
  match ← d.get? "single" with
  | some e => return .single e (← d.get "range")
  | none => return .shared (← d.get "batch") (← d.get "range") (← d.getD "filters" [])⟩

instance {α : Type} [Encode α] : Encode (Need α) := ⟨fun
  | .whole => encode "no-filter"
  | .parts ranges => encode ranges⟩

instance {α : Type} [Axis α] [Encode α] : Encode (Query Entity α) := ⟨fun q =>
  let keyed {β : Type} [Encode β] (xs : List (Entity × β)) : Json := encode (xs.map fun (e, x) => (e.importKey, x))
  let listed := match q with
    | .single e _ => [("single", encode e.importKey)]
    | .shared es _ needs => [("batch", encode (es.map (·.importKey))), ("filters", keyed needs)]
  .fields (listed ++ [("range", encode q.range), ("scanned", encode q.range), ("objs", encode q.cost),
    ("entity_ranges", keyed q.served)])⟩

end Backfill
