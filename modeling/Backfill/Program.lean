import Backfill.CommandLine
import Backfill.Log.Output
import Backfill.Process

/-!
# The program

From arguments and environment to an inspection that ends at once, or to a process at work.
-/

namespace Backfill

namespace Program

/-- What a program that begins comes to: an end, or a process, and the entries written on the way. -/
structure Beginning where
  outcome : Except ExitStatus Process
  entries : List Log.Entry := []

/-- The names of variables that matter, given the file that adds to the environment. -/
def variableNames (file : Option String) : List String :=
  let isNameChar (c : Char) : Bool := Environment.isWordChar c || c == '_'
  let words := (file.getD "").toList.map (fun c => if isNameChar c then c else ' ')
  (["RUST_LOG", "LOG_FORMAT"] ++ CommandLine.variableNames ++
    ((String.ofList words).splitOn " ").filter (!·.isEmpty)).eraseDups

/-- Looks for an import state. A storage in memory that was just opened has none. -/
def inspect (storage : CommandLine.StorageArgs) (importKey : String) : Beginning :=
  match Setup.openDescribed storage with
  | (.error e, entries) =>
    ⟨.error .failure, entries ++ [Process.errorEntry "Failed to inspect import state" e e.message]⟩
  | (.ok (), entries) =>
    ⟨.error .success, entries ++ [{
      level := .info
      target := Process.target
      message := "No import state stored under this key"
      fields := [("import_key", .worded importKey)] }]⟩

/-- The entry of a run that begins. -/
def runEntry (arguments : List String) : Log.Entry where
  level := .info
  target := Process.target
  message := "Executing run command with args: " ++ " ".intercalate arguments

/-- The contents of a providers file, if it could be read. -/
def providersOf (content : Option String) : Except ConfigError ProvidersFile :=
  content.elim (.error (.invalidProvidersFile "file not readable")) ProvidersFile.read?

/-- Begins a run, given how to read files. -/
def run (readFile : String → Option String) (arguments : List String) (args : CommandLine.RunArgs)
    (timer : Nat) : Beginning :=
  let (setup, entries) := Setup.ofRun args (providersOf (readFile args.providersFile))
  let entries := runEntry arguments :: entries
  match setup with
  | .error e =>
    let (status, last) := Process.stopped e e.message
    ⟨.error status, entries ++ last⟩
  | .ok setup =>
    match Process.start args setup timer with
    | .error (status, more) => ⟨.error status, entries ++ more⟩
    | .ok process =>
      let (more, process) := process.takeLog
      ⟨.ok process, entries ++ more⟩

/-- Begins what the arguments ask for. -/
def start (readFile : String → Option String) (env : Environment) (arguments : List String) (timer : Nat) :
    Beginning :=
  match CommandLine.command env.get? arguments with
  | .error .help => ⟨.error .success, []⟩
  | .error _ => ⟨.error .usage, []⟩
  | .ok (.inspect storage importKey) => inspect storage importKey
  | .ok (.run args) => run readFile arguments args timer

end Program

end Backfill
