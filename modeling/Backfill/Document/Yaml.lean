import Backfill.Document
import Backfill.Word

/-!
# YAML scalars

A scalar without quotes gets its meaning from its spelling when something other than a text is asked
for; as a text it is its spelling.
-/

namespace Backfill

/-- A scalar with its text; `plain` when it stood without quotes. -/
structure YamlScalar where
  text : String
  plain : Bool
  deriving DecidableEq, Repr

namespace YamlScalar

/-- The value of a text in a base with the digits of that base. -/
def digitsIn? (base : Nat) (cs : List Char) : Option Nat :=
  if cs.isEmpty then none
  else cs.foldlM (fun n c =>
    let d := if c.isDigit then c.toNat - 48 else if c.isLower then c.toNat - 87 else c.toNat - 55
    if c.isAlphanum && decide (d < base) then some (n * base + d) else none) 0

/-- A natural number: decimal without a zero in front, or with a base mark; one plus sign may lead. -/
def number? (s : String) : Option Nat :=
  let unsigned := match s.toList with
    | '+' :: rest => rest
    | cs => cs
  match unsigned with
  | '0' :: 'x' :: rest => digitsIn? 16 rest
  | '0' :: 'o' :: rest => digitsIn? 8 rest
  | '0' :: 'b' :: rest => digitsIn? 2 rest
  | '0' :: c :: rest => if (c :: rest).all Char.isDigit then none else digitsIn? 10 ('0' :: c :: rest)
  | cs => digitsIn? 10 cs

def nullTexts : List String := ["", "~", "null", "Null", "NULL"]

def boolTexts : List (String × Bool) :=
  [("true", true), ("True", true), ("TRUE", true), ("false", false), ("False", false), ("FALSE", false)]

def isNull (s : YamlScalar) : Bool := s.plain && nullTexts.contains s.text

def bool? (s : YamlScalar) : Option Bool :=
  if s.plain then (boolTexts.find? (·.1 == s.text)).map (·.2) else none

def word? (s : YamlScalar) : Option UInt64 :=
  if s.plain then (number? s.text).bind fun n => if n ≤ maxWord then some n.toUInt64 else none else none

instance : Scalar YamlScalar where
  isNull := isNull
  bool? := bool?
  word? := word?
  text? s := some s.text
  plainText? s := if s.isNull || s.bool?.isSome || s.word?.isSome then none else some s.text
  isBlank s := s.plain && s.text.isEmpty
  listsAreRecords := false

end YamlScalar

abbrev Yaml := Document YamlScalar

namespace Yaml

/-- What stands where a value was left out. -/
def missing : Yaml := .scalar ⟨"", true⟩

def quoted (cs : List Char) : Yaml := .scalar ⟨String.ofList cs, false⟩

def plain (cs : List Char) : Yaml := .scalar ⟨String.ofList cs, true⟩

end Yaml

end Backfill
