import Backfill.Assignment
import Backfill.Cache
import Backfill.Delivery

/-!
# Passes

One pass asks for the newest block, plans batches of queries and has them fetched, several at once. It
moves by small steps; between two of them other workers of the chain may move. What the provider answers
is handed in from outside. Once the pass is cancelled no further batch begins, but those under way end.
-/

namespace Backfill

/-- What the workers of a chain share, and what they leave behind. -/
structure Shared (σ : Type) where
  gate : Gate σ
  cache : Cache := {}
  store : Store := {}
  /-- The newest block imported for a key. -/
  lastImported : Keyed UInt64 := {}
  /-- Keys that need a provider with the full history. -/
  archiveNeeded : List String := []
  /-- Outcomes on their way to the updater, oldest first. -/
  outbox : List (Outcome UInt64) := []
  reports : List Report := []
  /-- Whether reports are logged as well. -/
  logReports : Bool := false
  log : Array Log.Entry := #[]

/-- A step on what is shared. -/
abbrev Act (σ : Type) := StateM (Shared σ)

namespace Shared

variable {σ : Type}

def say (entries : List Log.Entry) : Act σ Unit := modify fun s => { s with log := s.log ++ entries }

/-- The entries of a step stand inside the span. -/
def within {β : Type} (span : Log.Span) (act : Act σ β) : Act σ β := do
  let before := (← get).log
  modify fun s => { s with log := #[] }
  let x ← act
  modify fun s => { s with log := before ++ s.log.map (·.inside [span]) }
  return x

/-- A step of a call. -/
def stepCall {β : Type} [LockService σ] (t : CallTerms) (clock : Clock) (c : PacedCall β) :
    Act σ (PacedCall β) := do
  let (c, gate, entries) := c.step t clock (← get).gate
  modify fun s => { s with gate }
  say entries
  return c

/-- Hands in what the provider answered to a call. -/
def answerCall {β : Type} (t : CallTerms) (clock : Clock) (answer : Except RpcError β) (c : PacedCall β) :
    Act σ (PacedCall β) := do
  let (c, entries) := c.answered t clock.timer answer
  say entries
  return c

end Shared

/-- What a pass did. -/
structure Summary where
  entities : Nat := 0
  queries : Nat := 0
  batches : Nat := 0
  covered : Nat := 0
  failed : Nat := 0
  deriving DecidableEq, Repr

/-- What is asked of the provider. -/
inductive Request where
  /-- The newest block. -/
  | tip
  /-- The answers to the batch at a place of the plan. -/
  | fetch (place : Nat) (batch : List (Query Entity UInt64))

/-- The place of the batch that is asked for. -/
def Request.place? : Request → Option Nat
  | tip => none
  | fetch place _ => some place

/-- A batch under way. -/
structure Flight where
  place : Nat
  batch : List (Query Entity UInt64)
  call : PacedCall (List (Except RpcError Unit))

/-- Whether the batch has something to do at this reading of the timer. -/
def Flight.isDue (timer : Nat) (f : Flight) : Bool := f.call.isDue timer

/-- The batches of a pass: those that wait, those under way, and the outcomes so far. -/
structure Fetching where
  plan : PassPlan
  waiting : List (Nat × List (Query Entity UInt64))
  flying : List Flight := []
  outcomes : List (Outcome UInt64) := []

/-- A pass and how far it has come. -/
inductive Pass where
  | opening
  | tip (config : Plan.BatchConfig) (call : PacedCall UInt64)
  | fetching (f : Fetching)
  | finished (result : Except IndexerError Summary)

namespace Pass

variable {σ : Type} [LockService σ]

def result? : Pass → Option (Except IndexerError Summary)
  | .finished r => some r
  | _ => none

/-- The key under which the newest block is cached. -/
def tipKey (a : Assignment) : String := "latest_block:" ++ a.setup.chain.chain

def tipTerms (a : Assignment) : CallTerms := a.callTerms "eth_blockNumber"

def fetchTerms (a : Assignment) : CallTerms := a.callTerms "fetch"

/-! ## Planning -/

/-- Loads the states and plans the batches once the newest block is known. -/
def planned (a : Assignment) (config : Plan.BatchConfig) (clock : Clock) (latest : UInt64) : Act σ Pass := do
  let s ← get
  let (store, created) := Assignment.createStates clock.date a.entities s.store
  let (plan, entries) := a.plan config clock.date latest s.lastImported store
  set { s with store }
  Shared.say (created ++ entries)
  return .fetching { plan, waiting := plan.batches.zipIdx.map fun (batch, place) => (place, batch) }

/-- Looks for the newest block in the cache and asks for it if it is not there. -/
def opened (a : Assignment) (clock : Clock) : Act σ Pass := do
  if a.entities.isEmpty then return .finished (.ok {})
  match a.batchConfig with
  | .error e => return .finished (.error (.config e))
  | .ok config =>
    let cache := (← get).cache
    Shared.say (cache.wordEntries clock.timer (tipKey a))
    match cache.word? clock.timer (tipKey a) with
    | some latest => planned a config clock latest
    | none => return .tip config { wake := clock.timer }

/-- Keeps the newest block for the other workers and goes on. -/
def tipKnown (a : Assignment) (config : Plan.BatchConfig) (clock : Clock) :
    Except RpcError UInt64 → Act σ Pass
  | .error e => return .finished (.error (.rpc e))
  | .ok latest => do
    modify fun s => { s with cache := s.cache.keepWord clock.timer (tipKey a) latest a.setup.chain.cacheTtl }
    planned a config clock latest

/-! ## Fetching -/

/-- Sends off what the answer to a batch means. -/
def deliver (a : Assignment) (batch : List (Query Entity UInt64)) (answer : BatchAnswer) :
    Act σ (List (Outcome UInt64)) := do
  let deliveries := Delivery.ofBatch batch answer
  let s ← get
  let moved := if a.endpoint.limitations.archive then [] else Delivery.joining s.archiveNeeded deliveries
  let reports := deliveries.flatMap (·.reports a.endpoint.lockKey)
  let outcomes := deliveries.flatMap (·.outcomes)
  set { s with
    archiveNeeded := s.archiveNeeded ++ moved
    reports := s.reports ++ reports
    outbox := s.outbox ++ outcomes }
  Shared.say (moved.map Delivery.movedEntry ++ if s.logReports then reports.map (·.entry) else [])
  return outcomes

/-- The newest imported blocks after some outcomes. -/
def newest (known : Keyed UInt64) (outcomes : List (Outcome UInt64)) : Keyed UInt64 :=
  (outcomes.filter (·.success)).foldl
    (fun m o => m.alter o.importKey fun k => k.elim o.range.last (Axis.later · o.range.last)) known

/-- The end of a pass without a failure of its own. -/
def closed (a : Assignment) (f : Fetching) : Act σ Pass := do
  modify fun s => { s with lastImported := newest s.lastImported f.outcomes }
  return .finished (.ok
    { entities := a.entities.length
      queries := f.plan.queries.length
      batches := f.plan.batches.length
      covered := (f.outcomes.filter (·.success)).length
      failed := (f.outcomes.filter (!·.success)).length })

/-- Splits a list at the first element of a kind. -/
def pick? {β : Type} (p : β → Bool) : List β → Option (List β × β × List β)
  | [] => none
  | x :: rest => if p x then some ([], x, rest) else (pick? p rest).map fun (l, y, r) => (x :: l, y, r)

/-- A step of the batches: an answered one is delivered, else a waiting one begins, else one that is due
moves on. There is none while all of them wait for time or for answers. -/
def stepFetching (a : Assignment) (clock : Clock) (cancelled : Bool) (f : Fetching) : Option (Act σ Pass) :=
  match pick? (·.call.result?.isSome) f.flying with
  | some (before, flight, after) => some do
    let outcomes ← deliver a flight.batch (flight.call.result?.getD (.ok []))
    return .fetching { f with flying := before ++ after, outcomes := f.outcomes ++ outcomes }
  | none =>
    match if !cancelled && decide (f.flying.length < f.plan.width) then f.waiting else [] with
    | (place, batch) :: waiting =>
      some (pure (.fetching
        { f with waiting, flying := f.flying ++ [⟨place, batch, { wake := clock.timer }⟩] }))
    | [] =>
      match pick? (Flight.isDue clock.timer) f.flying with
      | some (before, flight, after) => some do
        let call ← Shared.stepCall (fetchTerms a) clock flight.call
        return .fetching { f with flying := before ++ { flight with call } :: after }
      | none => if f.flying.isEmpty then some (closed a f) else none

/-! ## Steps -/

/-- A step of the pass, if it does not wait for time or for an answer. -/
def step (a : Assignment) (clock : Clock) (cancelled : Bool) : Pass → Option (Act σ Pass)
  | .opening => some (opened a clock)
  | .tip config call =>
    match call.result? with
    | some r => some (tipKnown a config clock r)
    | none =>
      if call.isDue clock.timer then
        some do return .tip config (← Shared.stepCall (tipTerms a) clock call)
      else none
  | .fetching f => stepFetching a clock cancelled f
  | .finished _ => none

/-- The reading of the timer for which the pass waits, if it waits for time. -/
def wake? : Pass → Option Nat
  | .tip _ call => call.wake?
  | .fetching f => (f.flying.filterMap (·.call.wake?)).min?
  | _ => none

/-- What the provider is being asked, the oldest question first. -/
def requests : Pass → List Request
  | .tip _ call => if call.isCalling then [.tip] else []
  | .fetching f => (f.flying.filter (·.call.isCalling)).map fun flight => .fetch flight.place flight.batch
  | _ => []

/-- Hands in the newest block. -/
def answerTip (a : Assignment) (clock : Clock) (answer : Except RpcError UInt64) : Pass → Act σ Pass
  | .tip config call => return .tip config (← Shared.answerCall (tipTerms a) clock answer call)
  | p => return p

/-- Hands in the answer to the batch at a place; if it has to be asked for again, others come first. -/
def answerFetch (a : Assignment) (clock : Clock) (place : Nat) (answer : BatchAnswer) : Pass → Act σ Pass
  | .fetching f =>
    match pick? (·.place == place) f.flying with
    | none => return .fetching f
    | some (before, flight, after) => do
      let call ← Shared.answerCall (fetchTerms a) clock answer flight.call
      return .fetching { f with flying := before ++ after ++ [{ flight with call }] }
  | p => return p

end Pass

end Backfill
