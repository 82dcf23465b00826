import Backfill.Program

/-!
# Trials

A process against a scripted network: every message is answered by the next reply of a list. A signal may
arrive once certain texts have appeared in the log, when nothing is left to do at that moment.
-/

namespace Backfill.Rehearsal

/-- A process and the script of its surroundings. -/
structure Trial where
  clock : Clock
  process : Process
  readFile : String → Option String
  replies : List Remote.Reply
  /-- A signal, and the texts after which it arrives. -/
  signal : Option (StopSignal × List String)
  output : Log.Output
  log : List Log.Entry

namespace Trial

/-- Takes over what the process wrote. -/
def collect (t : Trial) : Trial :=
  let (entries, process) := t.process.takeLog
  { t with process, log := t.log ++ entries }

/-- Whether every text stands in some line of the log. -/
def shows (t : Trial) (texts : List String) : Bool :=
  let lines := (t.output.lines t.clock.date t.log).map String.toList
  texts.all fun text => lines.any (Text.occurs text.toList)

/-- The signal, if it is time for it. -/
def signalDue? (t : Trial) : Option StopSignal :=
  t.signal.bind fun (s, texts) => if t.shows texts then some s else none

/-- Sends the next message and hands in the reply to it, unless there is none. -/
def exchange (place : Nat) (w : Worker) (r : Request) (t : Trial) : Trial :=
  let (sending, process) := t.process.send t.clock place w r
  let t := { t with process }
  match sending, t.replies with
  | none, _ => t
  | some _, [] => t
  | some _, .timeout :: replies => { t with replies }
  | some s, reply :: replies => { t with process := t.process.receive t.clock s.exchange reply, replies }

/-- What happens when the process has nothing to do at this moment. -/
inductive Idle where
  | ended (status : ExitStatus) (entries : List Log.Entry)
  | moved (t : Trial)
  /-- Nothing will ever happen. -/
  | stuck

/-- The first that happens of: a reply is late, the signal arrives, the time is up, time passes. -/
def idle (t : Trial) : Idle :=
  let timer := t.clock.timer
  match t.process.expired? timer with
  | some x => .moved { t with process := t.process.receive t.clock x .timeout }
  | none =>
    match t.signalDue? with
    | some s => .moved { t with process := t.process.signal t.clock s, signal := none }
    | none =>
      match t.process.overdue? timer, t.process.wake? with
      | some (status, entries), _ => .ended status entries
      | none, some wake => .moved { t with clock := t.clock.runUntil wake }
      | none, none => .stuck

/-- Runs the process to its end. -/
def run : Nat → Trial → Option (ExitStatus × List Log.Entry)
  | 0, _ => none
  | fuel + 1, t =>
    let t := t.collect
    match t.process.result? with
    | some (status, last) => some (status, t.log ++ last)
    | none =>
      match t.process.step t.clock with
      | some process => run fuel { t with process }
      | none =>
        if t.process.asksEntities then
          let content := t.readFile t.process.args.entitiesFile
          run fuel { t with process := t.process.receiveEntities content }
        else
          match t.process.unsent? with
          | some (place, w, r) => run fuel (t.exchange place w r)
          | none =>
            match t.idle with
            | .ended status last => some (status, t.log ++ last)
            | .moved t => run fuel t
            | .stuck => none

end Trial

/-- The status and the entries of a program from its beginning to its end. -/
def trial (fuel : Nat) (clock : Clock) (readFile : String → Option String) (env : Environment)
    (arguments : List String) (replies : List Remote.Reply) (signal : Option (StopSignal × List String)) :
    Option (ExitStatus × List Log.Entry) :=
  match Program.start readFile env arguments clock.timer with
  | ⟨.error status, entries⟩ => some (status, entries)
  | ⟨.ok process, log⟩ =>
    Trial.run fuel ⟨clock, process, readFile, replies, signal, Log.Output.ofEnvironment env, log⟩

end Backfill.Rehearsal
