import Backfill.Log
import Backfill.Settings

/-!
# Shutdown

A signal, or the end of the runner, asks everybody to stop. What is under way then has a limited time to
end; after that it is given up, and after a forced quit the process ends at once.
-/

namespace Backfill

/-- What asks the program to stop. -/
inductive StopSignal where
  | terminate
  | interrupt
  | quit
  /-- The runner ended of its own accord. -/
  | internal
  deriving DecidableEq, Repr

/-- How a shutdown ends. -/
inductive ShutdownEnd where
  | completed
  | failed (detail : String)
  /-- The time is up. -/
  | overdue
  /-- The time is up after a forced quit. -/
  | forced
  deriving DecidableEq, Repr

namespace StopSignal

def text : StopSignal → String
  | terminate => "SIGTERM"
  | interrupt => "SIGINT"
  | quit => "SIGQUIT"
  | internal => "INTERNAL"

def target : String := "vault_indexer::utils::signal_handler"

/-- The entry of a program that begins to listen. -/
def listeningEntry : Log.Entry where
  level := .info
  target := target
  message :=
    "Signal handler initialized, listening for SIGTERM, SIGINT, SIGQUIT and internal shutdown requests"

/-- The entries of a signal that arrives. -/
def receivedEntries (s : StopSignal) : List Log.Entry :=
  let warning : List Log.Entry := match s with
    | quit => [{ level := .warn, target, message := "Force quit signal received (SIGQUIT)" }]
    | internal => [{ level := .warn, target, message := "Internal shutdown requested" }]
    | _ => []
  warning ++ [{ level := .info, target, message := "Received shutdown signal", fields := [("signal", .worded s.text)] }]

end StopSignal

namespace ShutdownEnd

/-- The entry of a shutdown that begins. -/
def startEntry (signal : StopSignal) (timeoutSecs : Nat) : Log.Entry where
  level := .info
  target := StopSignal.target
  message := "Starting graceful shutdown"
  fields := [("signal", .worded signal.text), ("timeout_secs", .count timeoutSecs)]

/-- The end of work that takes so many nanoseconds, or for ever, and may fail. Work that ends when the
time is just up counts as ended. -/
def ofWork (signal : StopSignal) (timeoutSecs : Nat) (takes : Option Nat) (failure : Option String) : ShutdownEnd :=
  if takes.any fun t => decide (t ≤ ofSeconds timeoutSecs) then failure.elim completed failed
  else if signal = .quit then forced
  else overdue

/-- What the program says when the time is up. -/
def overdueText : String := "Shutdown timeout exceeded"

/-- What went wrong, if the program goes on at all. -/
def failure? : ShutdownEnd → Option String
  | completed => none
  | failed detail => some detail
  | overdue => some overdueText
  | forced => some overdueText

/-- The entries of a shutdown that ends. -/
def entries (timeoutSecs : Nat) (e : ShutdownEnd) : List Log.Entry :=
  let target := StopSignal.target
  let timedOut : Log.Entry :=
    { level := .error, target, message := "Graceful shutdown timed out", fields := [("timeout_secs", .count timeoutSecs)] }
  match e with
  | completed => [{ level := .info, target, message := "Graceful shutdown completed successfully" }]
  | failed detail =>
    [{ level := .error, target, message := "Graceful shutdown failed", fields := [("error", .worded detail)] }]
  | overdue =>
    [timedOut,
      { level := .warn, target, message := "Shutdown timeout reached - in-flight import state merges may be lost" }]
  | forced => [timedOut, { level := .warn, target, message := "SIGQUIT received - forcing immediate exit" }]

end ShutdownEnd

end Backfill
