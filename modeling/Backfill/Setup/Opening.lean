import Backfill.Setup
import Backfill.CommandLine
import Backfill.Provider.File
import Backfill.Storage.Address
import Backfill.Log

/-!
# From arguments to a setup

The providers file is checked first, then the behaviour, then the storage.
-/

namespace Backfill

namespace Setup

def target : String := "vault_indexer::core::config"

/-- Opens the storage. No server answers here, so only the storage in memory can be opened. -/
def openStorage (storage : Storage) : Except IndexerError Unit × List Log.Entry :=
  match storage with
  | .memory =>
    (.ok (), [{ level := .info, target, message := "Using in-memory storage, nothing survives a restart" }])
  | .server address _ =>
    (.error (if ServerAddress.readable address then .cache else .database .server), [])

/-- Opens the storage that was described. -/
def openDescribed (args : CommandLine.StorageArgs) : Except IndexerError Unit × List Log.Entry :=
  match args.storage with
  | .error e => (.error (.config e), [])
  | .ok storage => openStorage storage

/-- Everything known before the storage is opened. -/
def ofArgs (args : CommandLine.RunArgs) (file : Except ConfigError ProvidersFile) : Except ConfigError Setup := do
  let file ← file
  let behaviour ← args.checkedBehaviour
  return ⟨file.settings, file.endpoints, behaviour, args.shaping, args.stream, args.retry, args.lock⟩

/-- The setup of a run, and the log entries written on the way. -/
def ofRun (args : CommandLine.RunArgs) (file : Except ConfigError ProvidersFile) :
    Except IndexerError Setup × List Log.Entry :=
  match ofArgs args file with
  | .error e => (.error (.config e), [])
  | .ok setup =>
    match openDescribed args.storage with
    | (.error e, entries) => (.error e, entries)
    | (.ok (), entries) =>
      (.ok setup, entries ++
        [{ level := .info, target, message := "Configuration loaded"
           fields := [("chain", .worded setup.chain.chain), ("providers", .count setup.endpoints.length),
             ("mode", .worded setup.behaviour.mode.text)] }])

end Setup

end Backfill
