import Backfill.Log
import Backfill.Text.Quoted
import Backfill.Document.JsonWriter
import Backfill.Timestamp.Text

/-!
# Log lines

An entry becomes one line: a JSON record for machines, or coloured columns for people. Fields of spans
come along, inner spans hide outer ones, and an entry's own fields hide those of spans.
-/

namespace Backfill.Log

/-! ## Parts -/

/-- Where the program's own targets begin. -/
def ownTarget : String := "vault_indexer"

/-- The short name of the part of the program that a target belongs to. -/
def moduleName (target : String) : String :=
  match Text.strip? ownTarget.toList target.toList with
  | none => "EXTERNAL"
  | some path =>
    let rec skipColons : List Char → List Char
      | ':' :: ':' :: rest => skipColons rest
      | cs => cs
    match ((String.ofList (skipColons path)).splitOn "::").head? with
    | some "sync" => "SYNC"
    | some "worker" => "WORKER"
    | some "core" => "CLIENT"
    | some "connector" => "CONNECTOR"
    | _ => "-"

/-- Sets a field in its place, or at the end. -/
def setField {β : Type} (name : String) (x : β) : List (String × β) → List (String × β)
  | [] => [(name, x)]
  | (n, y) :: rest => if n = name then (n, x) :: rest else (n, y) :: setField name x rest

/-- The fields of all spans, the innermost winning. -/
def Entry.spanFields (e : Entry) : List (String × String) :=
  e.spans.foldl (fun fields span => span.fields.foldl (fun fs (n, x) => setField n x fs) fields) []

/-- The host of an address; paths and queries often carry credentials. -/
def hostOf (address : String) : String :=
  let rest := match address.splitOn "://" with
    | _ :: second :: more => "://".intercalate (second :: more)
    | _ => address
  String.ofList (rest.toList.takeWhile fun c => c != '/' && c != '?')

/-! ## Records -/

def Value.toJson : Value → Json
  | .text s => Json.ofText s
  | .worded s => Json.ofText (Text.unquoted s)
  | .count n => Json.ofNat n
  | .delta i => Json.ofInt i
  | .flag b => Json.ofBool b
  | .ratio bits => Json.ofText (Decimal.render bits)

/-- The fields of the record: those of spans, the innermost span's name, those of the entry. -/
def Entry.recordFields (e : Entry) : List (String × Json) :=
  let fromSpans := e.spanFields.map fun (n, x) => (n, Json.ofText x)
  let named := e.spans.getLast?.elim fromSpans fun span => setField "span_name" (Json.ofText span.name) fromSpans
  e.fields.foldl (fun fs (n, x) => setField n x.toJson fs) named

/-- The record of an entry, apart from its time. -/
def Entry.toJson (e : Entry) : Json :=
  let fields := e.recordFields
  .fields ([("level", Json.ofText e.level.text), ("target", Json.ofText e.target),
    ("module", Json.ofText (moduleName e.target)), ("message", Json.ofText (Text.unquoted e.message))] ++
    if fields.isEmpty then [] else [("fields", .fields fields)])

/-- A time of writing, to the millisecond. -/
def stampOf (now : Timestamp) : String :=
  let s := now.secondOfDay.toNat
  let two := Text.padded 2
  let clock := s!"{two (s / 3600)}:{two (s / 60 % 60)}:{two (s % 60)}"
  s!"{now.dateText}T{clock}.{Text.padded 3 (now.nanos % giga / 1000000)}Z"

/-- The JSON line of an entry, its end included. -/
def Entry.jsonLine (now : Timestamp) (e : Entry) : String :=
  let fields := match e.toJson with
    | .fields xs => xs
    | _ => []
  Json.compact (.fields (("timestamp", Json.ofText (stampOf now)) :: fields)) ++ "\n"

/-! ## Columns -/

/-- The text in a colour. -/
def coloured (colour : Nat) (s : String) : String := s!"\x1b[{colour}m{s}\x1b[0m"

/-- At least `width` characters, filled up with spaces on the right. -/
def filled (width : Nat) (s : String) : String :=
  s ++ String.ofList (List.replicate (width - s.length) ' ')

def Level.colour : Level → Nat
  | trace => 90
  | debug => 34
  | info => 32
  | warn => 33
  | error => 31

def Value.shown : Value → String
  | .text s => Text.unquoted (Text.quoted s)
  | .worded s => Text.unquoted s
  | .count n => toString n
  | .delta i => toString i
  | .flag b => if b then "true" else "false"
  | .ratio bits => Decimal.render bits

/-- Time, level, chain, provider and module in columns, then the message and the entry's own fields. -/
def Entry.columns (clock : String) (e : Entry) : String :=
  let fields := e.spanFields
  let field? (name : String) : Option String := (fields.find? (·.1 == name)).map (·.2)
  let columns := [coloured 96 clock, coloured e.level.colour (filled 5 e.level.text),
    coloured 92 (filled 10 ((field? "chain").getD "-")),
    coloured 92 (filled 24 (((field? "provider").map hostOf).getD "-")),
    coloured 92 (filled 9 (moduleName e.target)),
    coloured 97 (Text.unquoted e.message)]
  let own := e.fields.map fun (n, x) => s!"\x1b[90m{n}=" ++ x.shown ++ "\x1b[0m"
  (" " ++ coloured 90 "|" ++ " ").intercalate columns ++
    (if own.isEmpty then "" else " (\x1b[97m" ++ ", ".intercalate own ++ "\x1b[0m)") ++ "\n"

/-- The clock of a column line, such as `24-01-31 23:59:59`. -/
def clockOf (now : Timestamp) : String :=
  let s := now.secondOfDay.toNat
  let (year, month, day) := Timestamp.dateOf (now.seconds / 86400)
  let two := Text.padded 2
  s!"{two (year % 100).toNat}-{two month}-{two day} {two (s / 3600)}:{two (s / 60 % 60)}:{two (s % 60)}"

/-- The column line of an entry, its end included. -/
def Entry.columnLine (now : Timestamp) (e : Entry) : String := e.columns (clockOf now)

end Backfill.Log
