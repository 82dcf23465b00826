import Backfill.Text.Blank
import Backfill.Axis

/-!
# Arguments

Reading arguments against a table of switches and options. The first fault from the left counts; after
all arguments variables of the environment fill in what was not given, and then what is still missing
is found out. An option's value is checked when the next known argument begins.
-/

namespace Backfill.CommandLine

/-- Why a command line is refused. -/
inductive Refusal where
  | missingRequired
  /-- A value of the wrong form. -/
  | badValue
  /-- A value is missing or none of the possible ones. -/
  | noValue
  | unknownArgument
  /-- An argument was given twice. -/
  | repeated
  | unknownCommand
  | help
  | nothingGiven
  /-- A switch was given a value. -/
  | valueForSwitch
  deriving DecidableEq, Repr

/-- What the values of an option must look like. -/
inductive Form where
  | text
  /-- Any text but the empty one. -/
  | path
  | word
  | positive
  | half
  | oneOf (names : List String)

/-- A natural number below 2⁶⁴, with at most one plus sign. -/
def readWord? (s : String) : Option Nat :=
  let digits := match s.toList with
    | '+' :: rest => rest
    | cs => cs
  if digits.isEmpty then none
  else
    (digits.foldlM (fun n c => (Text.digit? c).map (n * 10 + ·)) 0).filter (· ≤ maxWord)

/-- A natural number below 2³²; zero may have a minus sign. -/
def readHalf? (s : String) : Option Nat :=
  let n := match s.toList with
    | '-' :: rest =>
      if rest.head?.any Char.isDigit then (readWord? (String.ofList rest)).filter (· == 0) else none
    | _ => readWord? s
  n.filter (· < Nat.pow 2 32)

/-- The fault of a value, if it has one. -/
def Form.refusal? (value : String) : Form → Option Refusal
  | text => none
  | path => if value.isEmpty then some .noValue else none
  | word => if (readWord? value).isSome then none else some .badValue
  | positive => if (readWord? value).any (0 < ·) then none else some .badValue
  | half => if (readHalf? value).isSome then none else some .badValue
  | oneOf names => if names.contains value then none else some .badValue

/-- A switch, or an option that takes values of some form. -/
structure Spec where
  name : String
  /-- The variable that stands in for the argument. -/
  setBy : Option String := none
  /-- No form for a switch. -/
  form : Option Form := none
  standard : Option String := none
  required : Bool := false
  /-- Required unless this one is given. -/
  requiredUnless : Option String := none
  /-- Given together with this one only. -/
  requires : Option String := none

/-- Names with their values, as given so far. -/
abbrev Given := List (String × String)

/-- An option that waits for its value, with the value once it has come. -/
structure Pending where
  spec : Spec
  value : Option String

/-- Enters a value, unless the argument was given before or the value is not of its form. A switch in
the environment is `true` or `false`. -/
def enter (spec : Spec) (value : String) (given : Given) : Except Refusal Given :=
  if given.any (·.1 == spec.name) then .error .repeated
  else
    match spec.form with
    | none => if ["true", "false"].contains value then .ok ((spec.name, value) :: given) else .error .noValue
    | some form =>
      match form.refusal? value with
      | some refusal => .error refusal
      | none => .ok ((spec.name, value) :: given)

/-- Enters what waits. -/
def settle (pending : Option Pending) (given : Given) : Except Refusal Given :=
  match pending with
  | none => .ok given
  | some ⟨_, none⟩ => .error .noValue
  | some ⟨spec, some value⟩ => enter spec value given

/-- Splits `name=value`. -/
def splitValue (cs : List Char) : String × Option String :=
  let name := cs.takeWhile (· ≠ '=')
  (String.ofList name,
    if name.length < cs.length then some (String.ofList (cs.drop (name.length + 1))) else none)

/-- Reads arguments from left to right. -/
def readFrom (specs : List Spec) (pending : Option Pending) (given : Given) :
    List String → Except Refusal Given
  | [] => settle pending given
  | arg :: rest =>
    match arg.toList with
    | ['-', '-'] => if rest.isEmpty then settle pending given else .error .unknownArgument
    | '-' :: '-' :: cs =>
      let (name, value) := splitValue cs
      if name = "help" then
        if value.isSome then .error .valueForSwitch else (settle pending given).bind fun _ => .error .help
      else
        match specs.find? (·.name == name), value with
        | none, _ => .error .unknownArgument
        | some spec, value =>
          match spec.form, value with
          | none, some _ => .error .valueForSwitch
          | none, none => do readFrom specs none (← enter spec "true" (← settle pending given)) rest
          | some _, some v => do readFrom specs none (← enter spec v (← settle pending given)) rest
          | some _, none => do readFrom specs (some ⟨spec, none⟩) (← settle pending given) rest
    | '-' :: 'h' :: _ => (settle pending given).bind fun _ => .error .help
    | '-' :: _ :: _ => .error .unknownArgument
    | _ =>
      match pending with
      | some ⟨spec, none⟩ => readFrom specs (some ⟨spec, some arg⟩) given rest
      | _ => .error .unknownArgument

/-- Fills in variables of the environment. -/
def fillIn (environment : String → Option String) : List Spec → Given → Except Refusal Given
  | [], given => .ok given
  | spec :: specs, given =>
    if given.any (·.1 == spec.name) then fillIn environment specs given
    else
      match spec.setBy.bind environment with
      | none => fillIn environment specs given
      | some value => do fillIn environment specs (← enter spec value given)

/-- Whether something that must be given is missing. -/
def lacks (given : Given) (spec : Spec) : Bool :=
  let has (name : String) : Bool := given.any (·.1 == name)
  if has spec.name then spec.requires.any (!has ·)
  else spec.required || spec.requiredUnless.any (!has ·)

/-- Everything that was given in the arguments or the environment. -/
def read (specs : List Spec) (environment : String → Option String) (args : List String) :
    Except Refusal Given := do
  let given ← fillIn environment specs (← readFrom specs none [] args)
  if specs.any (lacks given) then throw .missingRequired
  return given

/-- The value of an argument, or its standard value. -/
def value? (specs : List Spec) (given : Given) (name : String) : Option String :=
  ((given.find? (·.1 == name)).map (·.2)).or ((specs.find? (·.name == name)).bind (·.standard))

end Backfill.CommandLine
