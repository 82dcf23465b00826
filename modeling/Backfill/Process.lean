import Backfill.Contract
import Backfill.Remote.Call
import Backfill.Runner
import Backfill.Setup.Opening
import Backfill.Shutdown

/-!
# Processes

A runner in the middle of the world: it asks for the entities file, sends messages to providers and waits
for replies, and ends on a signal or of its own accord. Replies, files, signals and time come from
outside, as data.
-/

namespace Backfill

/-- How a process ends. -/
inductive ExitStatus where
  | success
  /-- At once, after a forced quit. -/
  | forced
  /-- The command line was refused. -/
  | usage
  /-- An error ended it. -/
  | failure
  deriving DecidableEq, Repr

/-- The number by which the status is known outside. -/
def ExitStatus.code : ExitStatus → Nat
  | success => 0
  | forced => 1
  | usage => 2
  | failure => 101

/-- A message that was sent and waits for its reply. -/
structure Exchange where
  /-- The place of the worker that asks. -/
  place : Nat
  request : Request
  /-- The number of its first call. -/
  first : Nat
  /-- The reading of the timer at which nobody waits any longer. -/
  deadline : Nat

/-- What is on its way to a provider. -/
structure Sending where
  address : Url
  body : Json
  exchange : Exchange

/-- A process at work. -/
structure Process where
  args : CommandLine.RunArgs
  runner : Runner
  shared : Shared Locks := { gate := { locks := {} }, logReports := true }
  /-- The number of the next call to an address. It is no word that starts over, as no process lives to make 2⁶⁴
  calls. -/
  numbers : Keyed Nat := {}
  exchanges : List Exchange := []
  /-- What asked the process to end, and the reading of the timer by which it has to. -/
  ending : Option (StopSignal × Nat) := none

namespace Process

def target : String := "vault_indexer"

/-- An entry about an error that ends a process. -/
def errorEntry (message : String) (e : IndexerError) (chain : String) : Log.Entry where
  level := .error
  target := target
  message := message
  fields := [("error", .worded e.message), ("error_chain", .worded chain)]

/-- How a process ends on an error, and its last words. -/
def stopped (e : IndexerError) (chain : String) : ExitStatus × List Log.Entry :=
  (.failure, [errorEntry "Indexer stopped with an error" e chain])

/-- An error in its own words, with what lies behind it on a line of its own. -/
def chainOf (detail : String) (cause : Option String) : String :=
  "IndexerAnyHowError(" ++ detail ++ (cause.elim "" fun c => "\n\nCaused by:\n    " ++ c) ++ ")"

/-- How a process ends whose shutdown has ended, and its last words. -/
def afterShutdown (timeoutSecs : Nat) (e : ShutdownEnd) (cause : Option String) : ExitStatus × List Log.Entry :=
  let said := e.entries timeoutSecs
  match e, e.failure? with
  | .forced, _ => (.forced, said)
  | _, some detail =>
    let (status, last) := stopped (.other detail) (chainOf detail cause)
    (status, said ++ last)
  | _, none => (.success, said ++ [{ level := .info, target, message := "Indexer stopped" }])

/-- The entries about something that asks the process to end. -/
def endingEntries (signal : StopSignal) (timeoutSecs : Nat) : List Log.Entry :=
  signal.receivedEntries ++ [ShutdownEnd.startEntry signal timeoutSecs]

/-- Runs a step on what is shared. -/
def act {β : Type} (p : Process) (f : Act Locks β) : β × Process :=
  let (x, shared) := f p.shared
  (x, { p with shared })

def onRunner (p : Process) (f : Act Locks Runner) : Process :=
  let (runner, p) := p.act f
  { p with runner }

/-- The entries since they were last taken. -/
def takeLog (p : Process) : List Log.Entry × Process :=
  (p.shared.log.toList, { p with shared.log := #[] })

/-- What the calls of a pass over raw logs cost. -/
def costs : CallCosts := [(.getLogs, 1)]

/-- A process that is about to work, unless it ends at once. -/
def start (args : CommandLine.RunArgs) (setup : Setup) (timer : Nat) :
    Except (ExitStatus × List Log.Entry) Process :=
  let shared : Shared Locks := { gate := { locks := {} }, logReports := true }
  let (runner, shared) := (Runner.start setup costs timer) shared
  let hello : List Log.Entry :=
    [{ level := .debug, target, message := "Configuration initialized" }, StopSignal.listeningEntry]
  match runner with
  | .ok runner => .ok { args, runner, shared := { shared with log := hello.toArray ++ shared.log } }
  | .error e =>
    let (status, last) :=
      afterShutdown args.shutdownTimeoutSecs (.failed (IndexerError.config e).message) (some e.message)
    .error (status, hello ++ shared.log.toList ++ endingEntries .internal args.shutdownTimeoutSecs ++ last)

/-! ## Entities -/

/-- Hands in the content of the entities file, if it can be read. -/
def receiveEntities (content : Option String) (p : Process) : Process :=
  let path := p.args.entitiesFile
  match Contract.load path p.runner.setup.chain.chain content with
  | .error e => p.onRunner (p.runner.answerEntities (.error e.message))
  | .ok contracts => p.onRunner do
    Shared.within (Runner.span p.runner.setup) (Shared.say [Contract.fileEntry path contracts.length])
    p.runner.answerEntities (.ok (contracts.map (·.entity)))

/-! ## Messages -/

/-- The calls that a request stands for. -/
def calls : Request → List Remote.Call
  | .tip => [Remote.tipCall]
  | .fetch _ batch => batch.map fun q => Remote.logsCall (q.entities.map (·.address)) q.range

/-- Whether an exchange is about a request of the worker at a place. -/
def isAbout (place : Nat) (r : Request) (x : Exchange) : Bool :=
  x.place == place && x.request.place? == r.place?

/-- The first request that was not sent yet. -/
def unsent? (p : Process) : Option (Nat × Worker × Request) :=
  p.runner.requests.find? fun (place, _, r) => !p.exchanges.any (isAbout place r)

/-- Hands in the reply to a message. -/
def receive (clock : Clock) (x : Exchange) (reply : Remote.Reply) (p : Process) : Process :=
  let answer : Worker → Act Locks Worker := match x.request with
    | .tip => Worker.answerTip clock (Remote.readTip reply)
    | .fetch place batch => fun w => do
      let (results, entries) := Remote.readLogs x.first (calls (.fetch place batch)) reply
      Shared.within w.span (Shared.say entries)
      w.answerFetch clock place results
  let p := { p with exchanges := p.exchanges.filter (!isAbout x.place x.request ·) }
  p.onRunner (p.runner.answer clock x.place answer)

/-- Sends a request of the worker at a place. A request without calls is answered at once and not sent. -/
def send (clock : Clock) (place : Nat) (w : Worker) (r : Request) (p : Process) : Option Sending × Process :=
  let url := w.assignment.endpoint.url
  let first := (p.numbers.get? url.text).getD 1
  let message := Remote.messageOf (calls r)
  let exchange : Exchange := ⟨place, r, first, clock.timer + ofSeconds p.args.requestTimeoutSecs⟩
  match message.document? first with
  | none => (none, p.receive clock exchange .timeout)
  | some body =>
    let (_, p) := p.act (Shared.within w.span (Shared.say (message.entries first)))
    (some ⟨url, body, exchange⟩,
      { p with numbers := p.numbers.set url.text (first + message.size), exchanges := p.exchanges ++ [exchange] })

/-- A message whose reply nobody waits for any longer. -/
def expired? (p : Process) (timer : Nat) : Option Exchange := p.exchanges.find? fun x => decide (x.deadline ≤ timer)

/-! ## The end -/

/-- Asks the process to end; whatever asks first counts. -/
def signal (clock : Clock) (s : StopSignal) (p : Process) : Process :=
  match p.ending with
  | some _ => p
  | none =>
    let secs := p.args.shutdownTimeoutSecs
    let (_, p) := p.act (Shared.say (endingEntries s secs))
    { p with runner := p.runner.requestShutdown, ending := some (s, clock.timer + ofSeconds secs) }

/-- Whether the content of the entities file is asked for. -/
def asksEntities (p : Process) : Bool := p.runner.asksEntities

/-- A step of the runner, if it makes one. -/
def step (clock : Clock) (p : Process) : Option Process := (p.runner.step clock).map p.onRunner

/-- The end of a process whose runner has ended. -/
def result? (p : Process) : Option (ExitStatus × List Log.Entry) := do
  let result ← p.runner.result?
  let secs := p.args.shutdownTimeoutSecs
  let (status, last) := match result with
    | .ok () => afterShutdown secs .completed none
    | .error e => afterShutdown secs (.failed e.message) e.cause?
  return (status, (if p.ending.isNone then endingEntries .internal secs else []) ++ last)

/-- The end of a process that was asked to end and has no time left. -/
def overdue? (p : Process) (timer : Nat) : Option (ExitStatus × List Log.Entry) :=
  match p.ending with
  | some (s, deadline) =>
    if deadline ≤ timer then
      let secs := p.args.shutdownTimeoutSecs
      some (afterShutdown secs (ShutdownEnd.ofWork s secs none none) none)
    else none
  | none => none

/-- The reading of the timer for which the process waits. -/
def wake? (p : Process) : Option Nat :=
  (p.runner.wake?.toList ++ p.exchanges.map (·.deadline) ++ p.ending.toList.map (·.2)).min?

end Process

end Backfill
