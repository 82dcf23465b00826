import Backfill.Worker
import Backfill.Updater
import Backfill.Weights

/-!
# The runner of a chain

At every poll the entities are shared out among the providers by weight. A worker whose share changed is
stopped and another one started; a worker that has ended is started again. Entities that need the full
history go to providers that have it, if there are any. On a request to shut down, or on an error of
configuration, every worker is stopped and what was sent to the updater is merged before the runner ends.
-/

namespace Backfill

/-- Who gets which entities. -/
structure Sharing where
  /-- All providers, by their places. -/
  all : Branches Nat
  /-- The providers with the full history. -/
  archive : Option (Branches Nat)

namespace Sharing

/-- Shares by the providers' weights. -/
def ofEndpoints (endpoints : List Endpoint) : Except ConfigError Sharing := do
  let weigh (es : List (Endpoint × Nat)) : List (Nat × UInt64) :=
    es.map fun (e, place) => (place, e.limitations.providerWeight)
  let all ← Branches.ofWeights (weigh endpoints.zipIdx)
  let archive := weigh (endpoints.zipIdx.filter (·.1.limitations.archive))
  if archive.isEmpty then return ⟨all, none⟩
  return ⟨all, some (← Branches.ofWeights archive)⟩

/-- The entities in the order of their keys; of several with one key the first counts. -/
def canonical (entities : List Entity) : List Entity :=
  dedup (entities.mergeSort fun a b => decide (a.importKey ≤ b.importKey))
where
  dedup : List Entity → List Entity
    | a :: b :: rest => if a.importKey = b.importKey then dedup (a :: rest) else a :: dedup (b :: rest)
    | short => short
  termination_by es => es.length

/-- The share of every provider. -/
def shares (s : Sharing) (archiveNeeded : List String) (entities : List Entity) : List (Nat × List Entity) :=
  match s.archive with
  | none => s.all.split entities
  | some archive =>
    let (bound, free) := entities.partition fun e => archiveNeeded.contains e.importKey
    let extra := archive.split bound
    (s.all.split free).map fun (place, share) => (place, share ++ (extra.lookup place).getD [])

end Sharing

/-- What a runner is doing. -/
inductive RunnerStage where
  /-- It waits for the next poll. -/
  | waiting (poll : Nat)
  /-- It has asked for the entities; the next poll is known. -/
  | polling (poll : Nat)
  /-- It hands out the shares that are left. -/
  | handing (poll : Nat) (shares : List (Nat × List Entity))
  /-- It stops its workers. -/
  | stopping (result : Except IndexerError Unit)
  | ended (result : Except IndexerError Unit)

/-- A runner with its workers and the updater. -/
structure Runner where
  setup : Setup
  costs : CallCosts
  sharing : Sharing
  stage : RunnerStage
  /-- The worker of each provider. -/
  workers : List (Option Worker)
  updater : Updater UInt64 := {}
  /-- Whether a shutdown was requested. -/
  shutdown : Bool := false

namespace Runner

variable {σ : Type} [LockService σ]

def target : String := "vault_indexer::worker::chain_runner"

/-- The span of everything that a runner and its updater do. -/
def span (setup : Setup) : Log.Span where
  name := "chain_runner"
  target := target
  fields := [("chain", setup.chain.chain)]

def entry (level : Log.Level) (message : String) (fields : List (String × Log.Value)) : Log.Entry :=
  { level, target, message, fields }

/-- A runner that is about to poll for the first time. -/
def start (setup : Setup) (costs : CallCosts) (timer : Nat) : Act σ (Except ConfigError Runner) :=
  Shared.within (span setup) do
    match Sharing.ofEndpoints setup.endpoints with
    | .error e => return .error e
    | .ok sharing =>
      if sharing.archive.isNone then
        Shared.say [entry .info "No archive provider configured, pruned state stays in to_retry" []]
      return .ok
        { setup, costs, sharing, stage := .waiting timer, workers := setup.endpoints.map fun _ => none }

def result? (r : Runner) : Option (Except IndexerError Unit) :=
  match r.stage with
  | .ended result => some result
  | _ => none

/-- Asks everybody to stop. -/
def requestShutdown (r : Runner) : Runner :=
  { r with shutdown := true, workers := r.workers.map (·.map Worker.stop) }

/-! ## The updater -/

def limits (r : Runner) : GroupLimits := ⟨r.setup.stream.maxBuffer, ofMillis r.setup.stream.maxWaitMs⟩

/-- Merges groups of outcomes. -/
def mergeGroups (date : Timestamp) (groups : List (List (Outcome UInt64))) : Act σ Unit := do
  let (merges, store) := Merge.ofGroups (← get).store date groups
  modify fun s => { s with store }
  Shared.say (merges.flatMap (·.entries))

/-- Tells the updater what happened. -/
def tellUpdater (clock : Clock) (event : UpdaterEvent UInt64) (r : Runner) : Act σ Runner := do
  let (updater, groups) := r.updater.step r.limits clock.timer event
  mergeGroups clock.date groups
  return { r with updater }

/-- Hands the outcomes that were sent to the updater. -/
def receive (clock : Clock) (r : Runner) : Act σ Runner :=
  Shared.within (span r.setup) do
    let sent := (← get).outbox
    modify fun s => { s with outbox := [] }
    sent.foldlM (fun r o => r.tellUpdater clock (.outcome o)) r

/-! ## Polls -/

/-- Hands in what the source of entities answered. -/
def answerEntities (answer : Except String (List Entity)) (r : Runner) : Act σ Runner :=
  match r.stage with
  | .polling poll => Shared.within (span r.setup) do
    match answer with
    | .error e =>
      Shared.say [entry .error "Failed to fetch entities, keeping current assignment" [("error", .worded e)]]
      return { r with stage := .waiting poll }
    | .ok entities =>
      let entities := Sharing.canonical entities
      Shared.say [entry .debug "Entities polled" [("entities", .count entities.length)]]
      return { r with stage := .handing poll (r.sharing.shares (← get).archiveNeeded entities) }
  | _ => return r

/-- The worker at a place. -/
def workerAt? (r : Runner) (place : Nat) : Option Worker := (r.workers[place]?).join

def setWorker (r : Runner) (place : Nat) (w : Option Worker) : Runner := { r with workers := r.workers.set place w }

/-- Starts a worker on a share, unless the share is empty. -/
def hire (clock : Clock) (place : Nat) (share : List Entity) (r : Runner) : Act σ Runner :=
  match r.setup.endpoints[place]?, share with
  | some endpoint, _ :: _ => do
    Shared.say [entry .info "Starting worker"
      [("provider", .worded endpoint.lockKey), ("entities", .count share.length)]]
    let w := Worker.start ⟨r.setup, endpoint, r.costs, share⟩ clock.timer
    return r.setWorker place (some (if r.shutdown then w.stop else w))
  | _, _ => return r.setWorker place none

/-- What the end of a worker whose share changed leads to. -/
def dismiss (clock : Clock) (poll place : Nat) (share : List Entity) (rest : List (Nat × List Entity))
    (w : Worker) (result : Except IndexerError Unit) (r : Runner) : Act σ Runner := do
  let r := { r with stage := .handing poll rest }
  match result with
  | .ok () => hire clock place share r
  | .error e =>
    Shared.say [entry .error "Worker failed"
      [("provider", .worded w.assignment.endpoint.lockKey), ("error", .worded e.message)]]
    match e with
    | .config _ => return { r.setWorker place none with stage := .stopping (.error e) }
    | _ => hire clock place share r

/-- Whether a worker may go on with a share. -/
def keeps (w : Worker) (share : List Entity) : Bool :=
  w.result?.isNone && w.importKeys == share.map (·.importKey)

/-- The first worker that is left, with its place. -/
def firstWorker? (r : Runner) : Option (Worker × Nat) := (r.workers.zipIdx.filterMap fun (w, i) => w.map (·, i)).head?

/-- The runner's own step, if it does not wait for time, for an answer or for a worker to end. -/
def stepSelf (clock : Clock) (r : Runner) : Option (Act σ Runner) :=
  match r.stage with
  | .waiting poll =>
    if r.shutdown then some (pure { r with stage := .stopping (.ok ()) })
    else if poll ≤ clock.timer then
      some (pure { r with stage := .polling (clock.timer + r.setup.behaviour.pollEvery) })
    else none
  | .handing poll [] => some (pure { r with stage := .waiting poll })
  | .handing poll ((place, share) :: rest) =>
    match r.workerAt? place with
    | none => some (hire clock place share { r with stage := .handing poll rest })
    | some w =>
      if keeps w share then some (pure { r with stage := .handing poll rest })
      else
        match w.result? with
        | some result => some (dismiss clock poll place share rest w result r)
        | none => if w.stopping then none else some (pure (r.setWorker place (some w.stop)))
  | .stopping result =>
    match r.firstWorker? with
    | some (w, place) =>
      match w.result? with
      | some (.ok ()) => some (pure (r.setWorker place none))
      | some (.error e) => some do
        Shared.say [entry .error "Worker failed while stopping" [("error", .worded e.message)]]
        return r.setWorker place none
      | none => if w.stopping then none else some (pure (r.setWorker place (some w.stop)))
    | none => some do
      let r ← r.tellUpdater clock .closed
      Shared.say [Merge.stoppedEntry, entry .info "Chain runner stopped" []]
      return { r with stage := .ended result }
  | .polling _ => none
  | .ended _ => none

/-! ## Steps -/

/-- A step of the first worker that can make one, if there is any. -/
def stepWorkers (clock : Clock) (r : Runner) : Option (Act σ Runner) :=
  r.workers.zipIdx.findSome? fun (w, place) =>
    (w.bind (·.step clock)).map fun act => do
      let w ← act
      (r.setWorker place (some w)).receive clock

/-- A step of the runner, a worker or the updater, if not all of them wait. -/
def step (clock : Clock) (r : Runner) : Option (Act σ Runner) :=
  match r.stepSelf clock with
  | some act => some (Shared.within (span r.setup) act)
  | none =>
    match r.stepWorkers clock with
    | some act => some act
    | none =>
      if r.updater.isDue clock.timer then
        some (Shared.within (span r.setup) (r.tellUpdater clock .deadline))
      else none

/-- The reading of the timer for which all wait that wait for time. -/
def wake? (r : Runner) : Option Nat :=
  let polls := match r.stage with
    | .waiting poll => [poll]
    | _ => []
  (polls ++ r.workers.filterMap (·.bind Worker.wake?) ++ r.updater.due.toList).min?

/-- Whether the entities are being asked for. -/
def asksEntities (r : Runner) : Bool :=
  match r.stage with
  | .polling _ => true
  | _ => false

/-- What providers are being asked, with the places of the workers that ask. -/
def requests (r : Runner) : List (Nat × Worker × Request) :=
  r.workers.zipIdx.flatMap fun (w, place) => w.toList.flatMap fun w => w.requests.map (place, w, ·)

/-- Hands an answer to the worker at a place. -/
def answer (clock : Clock) (place : Nat) (f : Worker → Act σ Worker) (r : Runner) : Act σ Runner :=
  match r.workerAt? place with
  | none => return r
  | some w => do (r.setWorker place (some (← f w))).receive clock

end Runner

end Backfill
