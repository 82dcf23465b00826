import Backfill.Keyed
import Backfill.Text.Blank

/-!
# Environments

Variables by name. A file of assignments adds to them and never replaces what is set already: one
assignment a line, with quotes, escapes and references to earlier variables in the value. Reading stops
at the first line that is no assignment; what was read until then counts.
-/

namespace Backfill

/-- The variables of the environment. -/
abbrev Environment := Keyed String

namespace Environment

/-! ## Lines -/

/-- Where a line of the file stands. -/
inductive LineState where
  | plain
  /-- After a blank, where a comment may begin. -/
  | blank
  | escaped
  | weak
  | weakEscaped
  | strong
  | strongEscaped
  deriving DecidableEq, Repr

/-- The state after a character; there is none where a comment begins. -/
def LineState.next (c : Char) : LineState → Option LineState
  | escaped => some plain
  | weakEscaped => some weak
  | strongEscaped => some strong
  | weak => some (if c = '\\' then weakEscaped else if c = '"' then plain else weak)
  | strong => some (if c = '\\' then strongEscaped else if c = '\'' then plain else strong)
  | plain =>
    some (if c ≠ '\n' ∧ c ≠ '\r' ∧ Text.isBlank c then blank else opened c)
  | blank => if c = '#' then none else some (opened c)
where
  /-- What a character opens outside quotes. -/
  opened (c : Char) : LineState :=
    if c = '\\' then escaped else if c = '"' then weak else if c = '\'' then strong else plain

/-- The part of a line before its comment, and the state at the end; there is none after a comment. -/
def untilComment : LineState → List Char → List Char × Option LineState
  | s, [] => ([], some s)
  | s, c :: cs =>
    match s.next c with
    | none => ([], none)
    | some s =>
      let (front, last) := untilComment s cs
      (c :: front, last)

/-- The lines of a text with their ends. -/
def physicalLines : List Char → List (List Char)
  | [] => []
  | '\n' :: rest => ['\n'] :: physicalLines rest
  | c :: rest =>
    match physicalLines rest with
    | [] => [[c]]
    | line :: lines => (c :: line) :: lines

/-- A line without its end. -/
def chomp (line : List Char) : List Char :=
  match line.reverse with
  | '\n' :: '\r' :: rest => rest.reverse
  | '\n' :: rest => rest.reverse
  | _ => line

/-- Joins lines as long as quotes are open. A text that ends inside of quotes has a line that cannot be read. -/
def joinLines (pending : Option (List Char × LineState)) : List (List Char) → List (Option (List Char))
  | [] => pending.toList.map fun _ => none
  | line :: lines =>
    let (before, state) := pending.getD ([], .plain)
    if pending.isNone && (Text.trimStart line).head? == some '#' then joinLines none lines
    else
      match untilComment state line with
      | (front, none) => some (before ++ front) :: joinLines none lines
      | (_, some .plain) => some (chomp (before ++ line)) :: joinLines none lines
      | (_, some state) => joinLines (some (before ++ line, state)) lines

/-! ## Values -/

/-- Where the reading of a value stands. -/
inductive ValueState where
  | plain
  | escaped
  | strong
  /-- In the name of a variable, perhaps in braces. -/
  | reference (name : List Char) (braced : Bool)
  /-- After the value. -/
  | closed
  /-- In a comment after the value. -/
  | comment

/-- A value that is being read: whether double quotes are open, and what was read. -/
structure ValueReader where
  state : ValueState := .plain
  weak : Bool := false
  out : List Char := []

/-- Letters and digits; of characters beyond ASCII all count. -/
def isWordChar (c : Char) : Bool := c.isAlphanum || 128 ≤ c.toNat

/-- Reads a character outside of names, escapes and single quotes. -/
def ValueReader.plainNext (r : ValueReader) (c : Char) : ValueReader :=
  if c = '$' then { r with state := .reference [] false }
  else if c = '\\' then { r with state := .escaped }
  else if c = '"' then { r with state := .plain, weak := !r.weak }
  else if r.weak then { r with state := .plain, out := r.out ++ [c] }
  else if c = '\'' then { r with state := .strong }
  else if c = ' ' ∨ c = '\t' then { r with state := .closed }
  else { r with state := .plain, out := r.out ++ [c] }

/-- Reads a character, given what the names mean. -/
def ValueReader.next (value : List Char → List Char) (r : ValueReader) (c : Char) : Option ValueReader :=
  match r.state with
  | .closed => if c = ' ' ∨ c = '\t' then some r else if c = '#' then some { r with state := .comment } else none
  | .comment => some r
  | .escaped =>
    if ['\\', '\'', '"', '$', ' '].contains c then some { r with state := .plain, out := r.out ++ [c] }
    else if c = 'n' then some { r with state := .plain, out := r.out ++ ['\n'] }
    else none
  | .strong => some (if c = '\'' then { r with state := .plain } else { r with out := r.out ++ [c] })
  | .reference name false =>
    if isWordChar c then some { r with state := .reference (name ++ [c]) false }
    else if c = '\x7b' ∧ name = [] then some { r with state := .reference [] true }
    else
      let out := r.out ++ value name
      some (if c = '$' then { r with state := .reference [] false, out } else { r with state := .plain, out := out ++ [c] })
  | .reference name true =>
    if c = '\x7d' then some { r with state := .plain, out := r.out ++ value name }
    else some { r with state := .reference (name ++ [c]) true }
  | .plain => some (r.plainNext c)

/-- The value that was read when the line ends. -/
def ValueReader.finish? (value : List Char → List Char) (r : ValueReader) : Option (List Char) :=
  match r.weak, r.state with
  | true, _ => none
  | _, .strong => none
  | _, .reference _ true => none
  | _, .reference name false => some (r.out ++ value name)
  | _, _ => some r.out

/-- The value that a text stands for. -/
def readValue? (value : List Char → List Char) (cs : List Char) : Option (List Char) := do
  (← cs.foldlM (ValueReader.next value) {}).finish? value

/-! ## Assignments -/

def isKeyChar (c : Char) : Bool := c.isAlphanum || c == '_' || c == '.'

/-- A key, and what follows it and the blanks behind it. -/
def readKey? (cs : List Char) : Option (String × List Char) :=
  match cs with
  | c :: _ =>
    if c.isAlpha || c == '_' then
      some (String.ofList (cs.takeWhile isKeyChar), Text.trimStart (cs.dropWhile isKeyChar))
    else none
  | [] => none

/-- A key and the text of its value, perhaps after the word `export`. -/
def readAssignment? (cs : List Char) : Option (String × List Char) := do
  let (key, rest) ← readKey? cs
  match key, rest with
  | _, '=' :: rest => return (key, Text.trimStart rest)
  | "export", rest =>
    match ← readKey? rest with
    | (key, '=' :: rest) => return (key, Text.trimStart rest)
    | _ => none
  | _, _ => none

/-- The environment after a line, with the assignments made so far; there is none if it cannot be read. -/
def afterLine? (line : List Char) (env made : Environment) : Option (Environment × Environment) :=
  match Text.trim line with
  | [] => some (env, made)
  | '#' :: _ => some (env, made)
  | cs => do
    let (key, text) ← readAssignment? cs
    let lookUp (name : List Char) : List Char :=
      (((env.get? (String.ofList name)).or (made.get? (String.ofList name))).getD "").toList
    let value ← match text with
      | [] => some []
      | '#' :: _ => some []
      | text => readValue? lookUp text
    let value := String.ofList value
    return (if env.contains key then env else env.set key value, made.set key value)

/-- The environment after some lines. -/
def afterLines (lines : List (Option (List Char))) (env made : Environment) : Environment :=
  match lines with
  | [] => env
  | line :: lines =>
    match line.bind fun line => afterLine? line env made with
    | none => env
    | some (env, made) => afterLines lines env made

/-- The environment with the assignments of a file. -/
def withFile (env : Environment) (content : String) : Environment :=
  let cs := match content.toList with
    | '\ufeff' :: cs => cs
    | cs => cs
  afterLines (joinLines none (physicalLines cs)) env {}

end Environment

end Backfill
