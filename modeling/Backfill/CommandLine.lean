import Backfill.CommandLine.Arguments
import Backfill.Settings
import Backfill.Error

/-!
# The command line

Two commands: `run` backfills until it is stopped, `inspect` prints one import state. Every option but
the import key can also be set by a variable of the environment.
-/

namespace Backfill

/-- Where import states, locks and the cache live. -/
inductive Storage where
  /-- In the process; nothing survives a restart. -/
  | memory
  | server (address name : String)
  deriving DecidableEq, Repr

namespace CommandLine

/-- How the storage was described. -/
structure StorageArgs where
  memory : Bool
  address : Option String
  name : Option String

/-- The storage that was described. -/
def StorageArgs.storage (a : StorageArgs) : Except ConfigError Storage :=
  if a.memory then .ok .memory
  else
    match a.address, a.name with
    | none, _ => .error (.missingArgument "mongodb_connection_url")
    | some _, none => .error (.missingArgument "mongodb_database_name")
    | some address, some name => .ok (.server address name)

/-- The arguments of `run`. -/
structure RunArgs where
  storage : StorageArgs
  providersFile : String
  entitiesFile : String
  requestTimeoutSecs : Nat
  shutdownTimeoutSecs : Nat
  forceFrom : Option Nat
  forceTo : Option Nat
  /-- Everything but the forced range, which is not checked yet. -/
  behaviour : Behaviour
  shaping : Shaping
  stream : Stream
  retry : Retry
  lock : LockTimings

/-- A range from two bounds that are given together and in order. -/
def forcedRange (first last : Option Nat) : Except ConfigError (Option (Range UInt64)) :=
  match first, last with
  | none, none => .ok none
  | some a, some b =>
    if a ≤ b then .ok (some ⟨a.toUInt64, b.toUInt64⟩)
    else .error (.inconsistentRange "*" s!"forced block range [{a}, {b}] is inverted")
  | _, _ => .error (.missingArgument "force_from_block and force_to_block")

/-- The behaviour with its forced range. -/
def RunArgs.checkedBehaviour (a : RunArgs) : Except ConfigError Behaviour := do
  return { a.behaviour with force := ← forcedRange a.forceFrom a.forceTo }

/-- What to do. -/
inductive Command where
  | run (args : RunArgs)
  | inspect (storage : StorageArgs) (importKey : String)

/-! ## Tables -/

def fromEnvironment (name : String) : Option String := some ("VAULT_INDEXER_" ++ name)

def storageSpecs : List Spec :=
  [{ name := "memory-database", setBy := fromEnvironment "MEMORY_DATABASE", standard := some "false" },
    { name := "mongodb-connection-url", setBy := fromEnvironment "MONGODB_CONNECTION_URL", form := some .text
      requiredUnless := some "memory-database" },
    { name := "mongodb-database-name", setBy := fromEnvironment "DATABASE_NAME", form := some .text
      standard := some "vault_indexer" }]

/-- An option with a standard value. -/
def option (name var : String) (form : Form) (standard : String) : Spec :=
  { name, setBy := fromEnvironment var, form := some form, standard := some standard }

def switch (name var : String) : Spec := { name, setBy := fromEnvironment var, standard := some "false" }

def providerSpecs : List Spec :=
  [{ name := "providers-file", setBy := fromEnvironment "PROVIDERS_FILE", form := some .path, required := true },
    option "rpc-timeout-secs" "RPC_TIMEOUT" .word "30",
    option "rpc-max-attempts" "RPC_MAX_ATTEMPTS" .half "5",
    option "rpc-base-delay-ms" "RPC_BASE_DELAY_MS" .word "500",
    option "rpc-max-delay-ms" "RPC_MAX_DELAY_MS" .word "30000",
    option "lock-acquire-timeout-ms" "LOCK_ACQUIRE_TIMEOUT_MS" .word "60000",
    option "lock-expiry-seconds" "LOCK_EXPIRY_SECONDS" .word "120"]

def importSpecs : List Spec :=
  [{ name := "entities-file", setBy := fromEnvironment "ENTITIES_FILE", form := some .path, required := true },
    option "mode" "IMPORT_MODE" (.oneOf ["recent", "historical"]) "recent",
    option "wait-for-block-propagation" "WAIT_FOR_BLOCK_PROPAGATION" .word "0",
    { name := "force-from-block", setBy := fromEnvironment "FORCE_FROM_BLOCK", form := some .word
      requires := some "force-to-block" },
    { name := "force-to-block", setBy := fromEnvironment "FORCE_TO_BLOCK", form := some .word
      requires := some "force-from-block" },
    option "skip-recent-window" "SKIP_RECENT_WINDOW" (.oneOf ["all", "none", "live", "eol"]) "all",
    switch "ignore-import-state" "IGNORE_IMPORT_STATE",
    switch "strict" "STRICT",
    { name := "repeat-at-most-every-secs", setBy := fromEnvironment "REPEAT_AT_MOST_EVERY", form := some .word },
    option "input-poll-interval-secs" "INPUT_POLL_INTERVAL" .word "300",
    option "max-addresses-per-query" "MAX_ADDRESSES_PER_QUERY" .word "50",
    option "max-blocks-per-query" "MAX_BLOCKS_PER_QUERY" .word "10000",
    option "max-queries-per-product" "MAX_QUERIES_PER_PRODUCT" .word "10",
    option "merge-if-closer-than" "MERGE_IF_CLOSER_THAN" .word "1000",
    option "vertical-slices-size" "VERTICAL_SLICES_SIZE" .word "10000",
    option "range-index" "RANGE_INDEX" (.oneOf ["blob", "block-list"]) "blob",
    option "block-sampling-interval-secs" "BLOCK_SAMPLING_INTERVAL" .word "900"]

def serviceSpecs : List Spec :=
  [option "max-input-take" "MAX_INPUT_TAKE" .positive "500",
    option "work-concurrency" "WORK_CONCURRENCY" .positive "10",
    option "updater-max-buffer" "UPDATER_MAX_BUFFER" .positive "100",
    option "updater-max-wait-ms" "UPDATER_MAX_WAIT_MS" .word "1000",
    option "graceful-shutdown-timeout" "GRACEFUL_SHUTDOWN_TIMEOUT" .word "60"]

def runSpecs : List Spec := storageSpecs ++ providerSpecs ++ importSpecs ++ serviceSpecs

def inspectSpecs : List Spec := storageSpecs ++ [{ name := "import-key", form := some .text, required := true }]

/-! ## Help -/

/-- An option as the help shows it. -/
def Spec.helpLine (s : Spec) : String :=
  s!"  --{s.name}" ++ (if s.form.isSome then " <VALUE>" else "") ++
    s.setBy.elim "" (fun v => s!" [env: {v}]") ++ s.standard.elim "" (fun v => s!" [default: {v}]")

/-- How the program is used. -/
def usage : String :=
  "\n".intercalate (["Usage: vault-indexer run [OPTIONS]", "       vault-indexer inspect [OPTIONS]", "",
    "Options of run:"] ++ runSpecs.map Spec.helpLine ++ ["", "Options of inspect:"] ++ inspectSpecs.map Spec.helpLine)

/-- The variables of the environment that stand in for options. -/
def variableNames : List String := runSpecs.filterMap (·.setBy)

/-! ## Reading -/

def storageArgs (get : String → Option String) : StorageArgs :=
  ⟨get "memory-database" == some "true", get "mongodb-connection-url", get "mongodb-database-name"⟩

/-- The arguments of `run` by name. Numbers that must not be zero are at least one. -/
def runArgs (get : String → Option String) : RunArgs :=
  let text (name : String) : String := (get name).getD ""
  let number (name : String) : Nat := ((get name).bind readWord?).getD 0
  let atLeastOne (name : String) : Nat := max 1 (number name)
  let flag (name : String) : Bool := get name == some "true"
  { storage := storageArgs get
    providersFile := text "providers-file"
    entitiesFile := text "entities-file"
    requestTimeoutSecs := number "rpc-timeout-secs"
    shutdownTimeoutSecs := number "graceful-shutdown-timeout"
    forceFrom := (get "force-from-block").bind readWord?
    forceTo := (get "force-to-block").bind readWord?
    behaviour := {
      mode := (ImportMode.read? (text "mode")).getD .recent
      wait := (number "wait-for-block-propagation").toUInt64
      skip := (SkipWindow.read? (text "skip-recent-window")).getD .all
      ignoreState := flag "ignore-import-state"
      strict := flag "strict"
      repeatEvery := ((get "repeat-at-most-every-secs").bind readWord?).map ofSeconds
      pollEvery := ofSeconds (atLeastOne "input-poll-interval-secs") }
    shaping := {
      maxAddresses := atLeastOne "max-addresses-per-query"
      maxBlocks := atLeastOne "max-blocks-per-query"
      maxQueries := atLeastOne "max-queries-per-product"
      mergeGap := number "merge-if-closer-than"
      sliceSize := atLeastOne "vertical-slices-size"
      index := (IndexKind.read? (text "range-index")).getD .blob
      sampling := ofSeconds (atLeastOne "block-sampling-interval-secs") }
    stream := ⟨number "max-input-take", number "work-concurrency", number "updater-max-buffer",
      number "updater-max-wait-ms"⟩
    retry := ⟨max 1 (((get "rpc-max-attempts").bind readHalf?).getD 0), number "rpc-base-delay-ms",
      number "rpc-max-delay-ms"⟩
    lock := ⟨number "lock-acquire-timeout-ms", number "lock-expiry-seconds"⟩ }

/-- What follows `help`: at most one command, since commands have none of their own. -/
def helpFor : List String → Refusal
  | [] => .help
  | [name] => if ["run", "inspect", "help"].contains name then .help else .unknownCommand
  | _ => .unknownCommand

/-- The command that the arguments and the environment ask for. -/
def command (environment : String → Option String) : List String → Except Refusal Command
  | [] => .error .nothingGiven
  | "run" :: args => do
    let given ← read runSpecs environment args
    return .run (runArgs (value? runSpecs given))
  | "inspect" :: args => do
    let given ← read inspectSpecs environment args
    let get := value? inspectSpecs given
    return .inspect (storageArgs get) ((get "import-key").getD "")
  | "help" :: names => .error (helpFor names)
  | "--" :: rest => .error (match rest with
    | [] => .nothingGiven
    | name :: _ => if ["run", "inspect", "help"].contains name then .unknownArgument else .unknownCommand)
  | arg :: _ => .error (match arg.toList with
    | '-' :: '-' :: cs =>
      let (name, value) := splitValue cs
      if name = "help" then (if value.isSome then .valueForSwitch else .help) else .unknownArgument
    | '-' :: 'h' :: _ => .help
    | '-' :: _ :: _ => .unknownArgument
    | _ => .unknownCommand)

end CommandLine

end Backfill
