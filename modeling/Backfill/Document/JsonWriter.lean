import Backfill.Document.Json

/-!
# Writing JSON

The compact form has no space at all; the indented form puts every item and field on a line of its own.
Only quotes, backslashes and control characters are escaped.
-/

namespace Backfill.Json

def hexDigit (n : Nat) : Char := (Nat.toDigits 16 n).headD '0'

def escape (c : Char) : List Char :=
  match c with
  | '"' => ['\\', '"']
  | '\\' => ['\\', '\\']
  | '\n' => ['\\', 'n']
  | '\r' => ['\\', 'r']
  | '\t' => ['\\', 't']
  | '\x08' => ['\\', 'b']
  | '\x0c' => ['\\', 'f']
  | c =>
    if c.toNat < 32 then ['\\', 'u', '0', '0', hexDigit (c.toNat / 16), hexDigit (c.toNat % 16)] else [c]

/-- A text in quotes. -/
def quoted (s : String) : String := String.ofList ('"' :: s.toList.flatMap escape ++ ['"'])

def renderScalar : JsonScalar → String
  | .null => "null"
  | .bool b => if b then "true" else "false"
  | .word n => toString n.toNat
  | .negative n => "-" ++ toString n.toNat
  | .float bits => Decimal.render bits
  | .text s => quoted s
  | .broken => "null"

mutual

/-- The form without any space. -/
def compact : Json → String
  | .scalar s => renderScalar s
  | .items xs => "[" ++ ",".intercalate (compactItems xs) ++ "]"
  | .fields xs => "\x7b" ++ ",".intercalate (compactFields xs) ++ "\x7d"

def compactItems : List Json → List String
  | [] => []
  | x :: xs => compact x :: compactItems xs

def compactFields : List (String × Json) → List String
  | [] => []
  | (n, x) :: xs => (quoted n ++ ":" ++ compact x) :: compactFields xs

end

/-- The start of a line at a nesting level, two spaces a level. -/
def indent (level : Nat) : String := "\n" ++ String.ofList (List.replicate (2 * level) ' ')

mutual

/-- The form with one item or field a line; empty lists and records stay on one line. -/
def indented (level : Nat) : Json → String
  | .scalar s => renderScalar s
  | .items [] => "[]"
  | .items (x :: xs) =>
    "[" ++ ",".intercalate (indentedItems (level + 1) (x :: xs)) ++ indent level ++ "]"
  | .fields [] => "\x7b\x7d"
  | .fields (x :: xs) =>
    "\x7b" ++ ",".intercalate (indentedFields (level + 1) (x :: xs)) ++ indent level ++ "\x7d"

def indentedItems (level : Nat) : List Json → List String
  | [] => []
  | x :: xs => (indent level ++ indented level x) :: indentedItems level xs

def indentedFields (level : Nat) : List (String × Json) → List String
  | [] => []
  | (n, x) :: xs => (indent level ++ quoted n ++ ": " ++ indented level x) :: indentedFields level xs

end

/-- The indented form of a whole document. -/
def pretty (d : Json) : String := indented 0 d

end Backfill.Json
