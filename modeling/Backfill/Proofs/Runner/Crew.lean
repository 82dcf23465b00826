import Backfill.Proofs.Pass
import Backfill.Proofs.Runner.Steps
import Backfill.Proofs.Updater

/-!
# A runner among its workers and the updater

The runner, the workers and the updater are tasks that move in any order. What a worker brings it sends over a
channel of bounded room, one outcome after another, and the end of its pass waits until all of it is sent. The
updater ends once every sender is gone and the channel is empty, and the runner, which has a sender of its own,
returns after that.
-/

namespace Backfill

namespace Worker

variable {σ : Type} {w : Worker} {clock : Clock}

/-- Whether the worker may have outcomes to send. -/
def isFetching (w : Worker) : Bool :=
  match w.stage with
  | .passing _ (.fetching _) => true
  | _ => false

theorem isFetching_of_result? (h : w.result?.isSome = true) : w.isFetching = false := by
  rw [result?] at h
  split at h
  · rename_i result hstage
    rw [isFetching, hstage]
  · cases h

end Worker

/-- A worker may be in the runner's table, or the runner has let go of it. -/
inductive Seat where
  | place (place : Nat)
  | adrift (number : Nat)
  deriving DecidableEq

/-- The tasks of a runner, and three records that nothing reads: what the workers brought, what they sent, and the
groups that the updater merged. -/
structure Crew (σ : Type) where
  runner : Runner
  shared : Shared σ
  /-- Workers that the runner has let go of. -/
  adrift : List Worker := []
  /-- What workers have still to send. -/
  unsent : List (Seat × Outcome UInt64) := []
  channel : List (Outcome UInt64) := []
  /-- Whether the runner has dropped its own sender. -/
  hungUp : Bool := false
  updaterEnded : Bool := false
  brought : List (Outcome UInt64) := []
  sent : List (Outcome UInt64) := []
  merged : List (List (Outcome UInt64)) := []

namespace Crew

/-- What may happen next. -/
inductive Move (σ : Type) where
  | own (clock : Clock)
  /-- The runner notices that it is time to poll before it notices a request to shut down. -/
  | poll (clock : Clock)
  | answerEntities (answer : Except String (List Entity))
  | step (seat : Seat) (clock : Clock)
  | answerTip (seat : Seat) (clock : Clock) (answer : Except RpcError UInt64)
  | answerFetch (seat : Seat) (clock : Clock) (batch : Nat) (answer : BatchAnswer)
  | send (number : Nat)
  /-- The updater takes the oldest outcome from the channel. -/
  | receive (clock : Clock)
  | deadline (clock : Clock)
  | hangUp
  /-- The updater finds that all senders are gone. -/
  | close (clock : Clock)
  /-- The runner has waited for the updater. -/
  | leave (clock : Clock)
  | requestShutdown
  /-- Others change what is shared. -/
  | meanwhile (shared : Shared σ)

variable {σ : Type}

/-- A runner that has not done anything yet. -/
def start (runner : Runner) (shared : Shared σ) : Crew σ := { runner, shared }

/-! ## Tasks -/

def workerAt? (c : Crew σ) : Seat → Option Worker
  | .place place => c.runner.workerAt? place
  | .adrift number => c.adrift[number]?

def setWorker (c : Crew σ) (w : Worker) : Seat → Crew σ
  | .place place => { c with runner := c.runner.setWorker place (some w) }
  | .adrift number => { c with adrift := c.adrift.set number w }

/-- All workers that were ever started. -/
def workers (c : Crew σ) : List Worker := c.runner.workers.filterMap id ++ c.adrift

/-- How many outcomes the channel holds at most. -/
def capacity (c : Crew σ) : Nat := 2 * max 1 c.runner.setup.stream.maxBuffer

def owes (c : Crew σ) (seat : Seat) : Bool := c.unsent.any (·.1 == seat)

def letGo (c : Crew σ) (place : Nat) : Crew σ :=
  match c.runner.workerAt? place with
  | none => c
  | some w =>
    { c with
      adrift := c.adrift ++ [w]
      unsent := c.unsent.map fun (seat, o) => (if seat = .place place then .adrift c.adrift.length else seat, o) }

/-- What a worker makes of its seat, its outcomes aside. -/
def seated (c : Crew σ) (seat : Seat) (w : Worker) (shared : Shared σ) : Crew σ :=
  { c.setWorker w seat with
    shared := { shared with outbox := [] }
    unsent := c.unsent ++ shared.outbox.map (seat, ·)
    brought := c.brought ++ shared.outbox }

/-- A worker makes a move; a pass does not end before its outcomes are sent. -/
def act (c : Crew σ) (seat : Seat) (f : Worker → Option (Act σ Worker)) : Crew σ :=
  match (c.workerAt? seat).bind f with
  | none => c
  | some act =>
    if c.owes seat && !(act.run { c.shared with outbox := [] }).1.isFetching then c
    else c.seated seat (act.run { c.shared with outbox := [] }).1 (act.run { c.shared with outbox := [] }).2

def perform (c : Crew σ) (act : Act σ Runner) : Crew σ :=
  { c with
    runner := ((Shared.within (Runner.span c.runner.setup) act).run c.shared).1
    shared := ((Shared.within (Runner.span c.runner.setup) act).run c.shared).2 }

def groups (c : Crew σ) (clock : Clock) (event : UpdaterEvent UInt64) : List (List (Outcome UInt64)) :=
  (c.runner.updater.step c.runner.limits clock.timer event).2

/-- The updater is told something, and merges what is complete. -/
def tell (c : Crew σ) (clock : Clock) (event : UpdaterEvent UInt64) : Crew σ :=
  { c.perform (c.runner.tellUpdater clock event) with merged := c.merged ++ c.groups clock event }

/-! ## Moves -/

/-- A step of the runner's own, but for the last one. -/
def own (c : Crew σ) (clock : Clock) : Crew σ :=
  if c.runner.isLast then c
  else
    match c.runner.stepSelf clock with
    | none => c
    | some act => (c.runner.vacates?.elim c c.letGo).perform act

def poll (c : Crew σ) (clock : Clock) : Crew σ :=
  match c.runner.stage with
  | .waiting poll =>
    if poll ≤ clock.timer then
      { c with runner := { c.runner with stage := .polling (clock.timer + c.runner.setup.behaviour.pollEvery) } }
    else c
  | _ => c

def answerEntities (c : Crew σ) (answer : Except String (List Entity)) : Crew σ :=
  { c with
    runner := ((c.runner.answerEntities answer).run c.shared).1
    shared := ((c.runner.answerEntities answer).run c.shared).2 }

/-- An outcome enters the channel if there is room; it is lost if nobody is at the other end. -/
def send (c : Crew σ) (number : Nat) : Crew σ :=
  match c.unsent[number]? with
  | none => c
  | some (_, o) =>
    if c.updaterEnded then { c with unsent := c.unsent.eraseIdx number, sent := c.sent ++ [o] }
    else if c.channel.length < c.capacity then
      { c with unsent := c.unsent.eraseIdx number, sent := c.sent ++ [o], channel := c.channel ++ [o] }
    else c

def receive (c : Crew σ) (clock : Clock) : Crew σ :=
  match c.updaterEnded, c.channel with
  | false, o :: channel => { c with channel }.tell clock (.outcome o)
  | _, _ => c

def deadline (c : Crew σ) (clock : Clock) : Crew σ :=
  if !c.updaterEnded && c.runner.updater.isDue clock.timer then c.tell clock .deadline else c

def hangUp (c : Crew σ) : Crew σ := if c.runner.isLast then { c with hungUp := true } else c

def close (c : Crew σ) (clock : Clock) : Crew σ :=
  if c.hungUp && !c.updaterEnded && c.channel.isEmpty && c.workers.all (·.result?.isSome) then
    { c.tell clock .closed with updaterEnded := true }
  else c

def leave (c : Crew σ) (clock : Clock) : Crew σ :=
  if c.runner.isLast && c.hungUp && c.updaterEnded then
    match c.runner.stepSelf clock with
    | none => c
    | some act => { c.perform act with merged := c.merged ++ c.groups clock .closed }
  else c

def move [LockService σ] (c : Crew σ) : Move σ → Crew σ
  | .own clock => c.own clock
  | .poll clock => c.poll clock
  | .answerEntities answer => c.answerEntities answer
  | .step seat clock => c.act seat (Worker.step clock)
  | .answerTip seat clock answer => c.act seat fun w => some (w.answerTip clock answer)
  | .answerFetch seat clock batch answer => c.act seat fun w => some (w.answerFetch clock batch answer)
  | .send number => c.send number
  | .receive clock => c.receive clock
  | .deadline clock => c.deadline clock
  | .hangUp => c.hangUp
  | .close clock => c.close clock
  | .leave clock => c.leave clock
  | .requestShutdown => { c with runner := c.runner.requestShutdown, adrift := c.adrift.map Worker.stop }
  | .meanwhile shared => { c with shared }

def run [LockService σ] (c : Crew σ) (moves : List (Move σ)) : Crew σ := moves.foldl move c

end Crew

end Backfill
