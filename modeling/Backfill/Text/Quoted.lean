import Backfill.Text.Printable

/-!
# Quoted texts

A text in double quotes with backslash escapes; what is not printable is written by its code point.
-/

namespace Backfill.Text

def escapeQuoted (c : Char) : List Char :=
  match c with
  | '\x00' => ['\\', '0']
  | '\t' => ['\\', 't']
  | '\r' => ['\\', 'r']
  | '\n' => ['\\', 'n']
  | '"' => ['\\', '"']
  | '\\' => ['\\', '\\']
  | c => if isPrintable c then [c] else "\\u\x7b".toList ++ Nat.toDigits 16 c.toNat ++ ['\x7d']

/-- The text in quotes. -/
def quoted (s : String) : String := String.ofList ('"' :: s.toList.flatMap escapeQuoted ++ ['"'])

/-- The text without the quotes at its ends. -/
def unquoted (s : String) : String :=
  String.ofList (((s.toList.dropWhile (· == '"')).reverse.dropWhile (· == '"')).reverse)

end Backfill.Text
