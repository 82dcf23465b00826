import Backfill.Pass

/-!
# Workers

A worker runs passes over its assignment: a single one, or one after another with their starts some time
apart. It ends when its only pass ends, on an error of configuration, or when it is stopped.
-/

namespace Backfill

/-- What a worker is doing. -/
inductive WorkerStage where
  /-- It waits until the timer reaches a reading. -/
  | pausing (wake : Nat)
  /-- It runs a pass that began at a reading of the timer. -/
  | passing (began : Nat) (pass : Pass)
  | ended (result : Except IndexerError Unit)

/-- A worker with its assignment. -/
structure Worker where
  assignment : Assignment
  stage : WorkerStage
  /-- Whether it was told to stop. -/
  stopping : Bool := false

namespace Worker

variable {σ : Type} [LockService σ]

/-- A worker that is about to begin. -/
def start (a : Assignment) (timer : Nat) : Worker := { assignment := a, stage := .pausing timer }

def stop (w : Worker) : Worker := { w with stopping := true }

def result? (w : Worker) : Option (Except IndexerError Unit) :=
  match w.stage with
  | .ended r => some r
  | _ => none

/-- The keys in the worker's care. -/
def importKeys (w : Worker) : List String := w.assignment.entities.map (·.importKey)

/-- The span of everything that the worker does. -/
def span (w : Worker) : Log.Span where
  name := "chain_worker"
  target := Assignment.target
  fields := [("chain", w.assignment.setup.chain.chain), ("provider", w.assignment.endpoint.lockKey)]

/-- The entry of a completed pass. -/
def completedEntry (s : Summary) (elapsed : Nat) : Log.Entry where
  level := .info
  target := Assignment.target
  message := "Pass completed"
  fields := [("entities", .count s.entities), ("queries", .count s.queries), ("batches", .count s.batches),
    ("covered", .count s.covered), ("failed", .count s.failed), ("elapsed_ms", .count (elapsed / 1000000))]

/-- The entry of an error at the end of a pass. -/
def errorEntry (message cause : String) : Log.Entry where
  level := .error
  target := Assignment.target
  message := message
  fields := [("error", .worded cause)]

/-- What follows a pass that began at a reading of the timer. -/
def afterPass (w : Worker) (timer began : Nat) (result : Except IndexerError Summary) :
    WorkerStage × List Log.Entry :=
  let next : WorkerStage := match w.assignment.setup.behaviour.repeatEvery with
    | none => .ended (.ok ())
    | some every => .pausing (max timer (began + every))
  match result with
  | .ok summary => (next, [completedEntry summary (timer - began)])
  | .error (.config e) =>
    (.ended (.error (.config e)), [errorEntry "Configuration error, stopping worker" e.message])
  | .error e =>
    if w.assignment.setup.behaviour.repeatEvery.isNone then (.ended (.error e), [])
    else (next, [errorEntry "Pass failed" e.message])

/-- A step of the worker, if it does not wait for time or for an answer. -/
def step? (clock : Clock) (w : Worker) : Option (Act σ Worker) :=
  match w.stage with
  | .ended _ => none
  | .pausing wake =>
    if w.stopping then some do
      Shared.say [{ level := .debug, target := Assignment.target, message := "Worker stopped" }]
      return { w with stage := .ended (.ok ()) }
    else if wake ≤ clock.timer then some (pure { w with stage := .passing clock.timer .opening })
    else none
  | .passing began pass =>
    match pass.result? with
    | some result => some do
      let (stage, entries) := w.afterPass clock.timer began result
      Shared.say entries
      return { w with stage }
    | none =>
      (pass.step w.assignment clock w.stopping).map fun act => do
        return { w with stage := .passing began (← act) }

/-- A step of the worker with its entries inside its span. -/
def step (clock : Clock) (w : Worker) : Option (Act σ Worker) := (w.step? clock).map (Shared.within w.span)

/-- The reading of the timer for which the worker waits, if it waits for time. -/
def wake? (w : Worker) : Option Nat :=
  match w.stage with
  | .pausing wake => some wake
  | .passing _ pass => pass.wake?
  | .ended _ => none

/-- What its provider is being asked. -/
def requests (w : Worker) : List Request :=
  match w.stage with
  | .passing _ pass => pass.requests
  | _ => []

/-- Changes the pass under way; what this writes stands inside the worker's span. -/
def onPass (w : Worker) (f : Pass → Act σ Pass) : Act σ Worker :=
  match w.stage with
  | .passing began pass => Shared.within w.span do return { w with stage := .passing began (← f pass) }
  | _ => return w

def answerTip (clock : Clock) (answer : Except RpcError UInt64) (w : Worker) : Act σ Worker :=
  w.onPass (Pass.answerTip w.assignment clock answer)

def answerFetch (clock : Clock) (place : Nat) (answer : BatchAnswer) (w : Worker) : Act σ Worker :=
  w.onPass (Pass.answerFetch w.assignment clock place answer)

end Worker

end Backfill
