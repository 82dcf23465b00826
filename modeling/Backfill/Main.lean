import Backfill.Program
import Backfill.Remote.Wire
import Std.Async.DNS
import Std.Async.Signal
import Std.Async.TCP

/-!
# The executable

Reads the clock, files and variables, carries messages to providers, listens for signals and writes the
log. Everything else is decided by the process. Connections are plain ones; an address that asks for an
encrypted one counts as broken.
-/

namespace Backfill.Executable

open Std.Async

/-- The date and the reading of the timer. -/
def readClock : IO Clock := do
  let now ← Std.Time.Timestamp.now
  return ⟨(Timestamp.ofParts? now.val.second.val now.val.nano.val).getD Timestamp.epoch, ← IO.monoNanosNow⟩

/-- The content of a file, if it can be read as a text. -/
def contentOf? (path : String) : IO (Option String) := do
  try
    return some (← IO.FS.readFile path)
  catch _ => return none

/-- The file of assignments in the working directory or the nearest one above it. -/
def assignments? : IO (Option String) := do
  let parts := (toString (← IO.currentDir)).splitOn "/"
  for n in List.range parts.length do
    match ← contentOf? ("/".intercalate (parts.take (parts.length - n) ++ [".env"])) with
    | some content => return some content
    | none => pure ()
  return none

/-- The variables that matter. -/
def readEnvironment : IO Environment := do
  let file ← assignments?
  let set ← (Program.variableNames file).filterMapM fun name => return (← IO.getEnv name).map (name, ·)
  let env := Keyed.ofList set
  return file.elim env (Environment.withFile env)

/-- Writes the entries that pass the filter. -/
def write (output : Log.Output) (entries : List Log.Entry) : IO Unit := do
  let now := (← readClock).date
  let out ← IO.getStdout
  for line in output.lines now entries do
    out.putStr line
  out.flush

/-! ## Messages -/

/-- Everything that comes over a connection until the other side closes it. -/
def receiveAll (client : TCP.Socket.Client) : Async ByteArray := do
  let mut bytes := ByteArray.empty
  repeat
    match ← client.recv? 65536 with
    | none => break
    | some more => bytes := bytes ++ more
  return bytes

/-- Where a host is reached. -/
def socketOf (address : Std.Net.IPAddr) (port : UInt16) : Std.Net.SocketAddress :=
  match address with
  | .v4 addr => .v4 ⟨addr, port⟩
  | .v6 addr => .v6 ⟨addr, port⟩

/-- Sends a message and waits for the reply. -/
def exchange (s : Sending) : Async Remote.Reply := do
  try
    if String.ofList s.address.scheme != "http" then return .broken (Remote.unansweredText s.address)
    let port := s.address.port.getD 80
    let host := String.ofList ((s.address.host.getD []).filter fun c => c != '[' && c != ']')
    match (← DNS.getAddrInfo host (toString port))[0]? with
    | none => return .broken (Remote.unansweredText s.address)
    | some address =>
      let client ← TCP.Socket.Client.mk
      client.connect (socketOf address port.toUInt16)
      client.send (Remote.postMessage s.address s.body)
      return Remote.replyOf s.address (← receiveAll client).toList
  catch _ => return .broken (Remote.unansweredText s.address)

/-! ## Work -/

/-- The signals that end the process, each with the task that waits for it. -/
def listen : IO (List (StopSignal × AsyncTask Int)) := do
  [(StopSignal.terminate, Signal.sigterm), (.interrupt, .sigint), (.quit, .sigquit)].mapM fun (s, signal) => do
    return (s, ← (← Signal.Waiter.mk signal false).wait)

/-- Lets a process work to its end. When it has nothing to do it looks for news every few milliseconds. -/
def work (output : Log.Output) (begun : Process) : IO ExitStatus := do
  let signals ← listen
  let mut process := begun
  let mut underWay : List (Exchange × AsyncTask Remote.Reply) := []
  repeat
    let clock ← readClock
    let (entries, quiet) := process.takeLog
    process := quiet
    write output entries
    if let some (status, last) := process.result? then
      write output last
      return status
    if let some next := process.step clock then
      process := next
      continue
    if process.asksEntities then
      process := process.receiveEntities (← contentOf? process.args.entitiesFile)
      continue
    if let some (place, w, r) := process.unsent? then
      let (sending, next) := process.send clock place w r
      process := next
      if let some s := sending then
        underWay := underWay ++ [(s.exchange, ← Async.toIO (exchange s))]
      continue
    if let some x := process.expired? clock.timer then
      underWay := underWay.filter fun (y, _) => !Process.isAbout x.place x.request y
      process := process.receive clock x .timeout
      continue
    let mut waiting := []
    let mut answered := false
    for (x, task) in underWay do
      if ← IO.hasFinished task then
        answered := true
        process := process.receive clock x (match task.get with
          | .ok reply => reply
          | .error e => .broken (toString e))
      else
        waiting := waiting ++ [(x, task)]
    underWay := waiting
    if answered then continue
    if process.ending.isNone then
      if let some (s, _) ← signals.findM? fun (_, task) => IO.hasFinished task then
        process := process.signal clock s
        continue
    if let some (status, last) := process.overdue? clock.timer then
      write output last
      return status
    IO.sleep 5
  return .failure

/-- Runs the command that the arguments ask for. -/
def run (arguments : List String) : IO ExitStatus := do
  let env ← readEnvironment
  let output := Log.Output.ofEnvironment env
  let providers ← match CommandLine.command env.get? arguments with
    | .ok (.run args) => contentOf? args.providersFile
    | .ok (.inspect ..) => pure none
    | .error .help => do
      IO.println CommandLine.usage
      pure none
    | .error _ => do
      IO.eprintln CommandLine.usage
      pure none
  let begun := Program.start (fun _ => providers) env arguments (← IO.monoNanosNow)
  write output begun.entries
  match begun.outcome with
  | .ok process => work output process
  | .error status => return status

end Backfill.Executable

/-- Runs the program; the exit status tells how it ended. -/
def main (arguments : List String) : IO UInt32 := do
  return (← Backfill.Executable.run arguments).code.toUInt32
