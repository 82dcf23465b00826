import Backfill.Text.Blank

/-!
# Percent encoding

Bytes that may not stand in a part of a URL are written as a percent sign and two hexadecimal digits.
Characters outside ASCII are always written so, byte by byte.
-/

namespace Backfill.Url

open Text

/-- A control character of ASCII. -/
def isControl (c : Char) : Bool := c.toNat < 32 || c.toNat == 127

/-- What a fragment may not hold. -/
def notInFragment (c : Char) : Bool := isControl c || [' ', '"', '<', '>', '\x60'].contains c

/-- What a query may not hold; a quote is allowed outside the web's own schemes. -/
def notInQuery (special : Bool) (c : Char) : Bool :=
  isControl c || [' ', '"', '#', '<', '>'].contains c || (special && c == '\'')

/-- What a path may not hold. -/
def notInPath (c : Char) : Bool := notInFragment c || ['#', '?', '\x7b', '\x7d'].contains c

/-- What a user name or a password may not hold. -/
def notInUser (c : Char) : Bool :=
  notInPath c || ['/', ':', ';', '=', '@', '[', '\\', ']', '^', '|'].contains c

def upperHex (n : Nat) : Char := if n < 10 then Char.ofNat (48 + n) else Char.ofNat (55 + n)

def escapeByte (b : UInt8) : List Char := ['%', upperHex (b.toNat / 16), upperHex (b.toNat % 16)]

/-- A character, escaped if it is forbidden or outside ASCII. -/
def escapeChar (forbidden : Char → Bool) (c : Char) : List Char :=
  if c.toNat < 128 && !forbidden c then [c] else (String.utf8EncodeChar c).flatMap escapeByte

def escape (forbidden : Char → Bool) (cs : List Char) : List Char := cs.flatMap (escapeChar forbidden)

theorem escape_append (forbidden : Char → Bool) (a b : List Char) :
    escape forbidden (a ++ b) = escape forbidden a ++ escape forbidden b := List.flatMap_append

/-- The bytes of a text with every escape resolved; a percent sign without two digits stands for
itself. -/
def unescape : List Char → List UInt8
  | [] => []
  | '%' :: a :: b :: rest =>
    match hexDigit? a, hexDigit? b with
    | some x, some y => (16 * x + y).toUInt8 :: unescape rest
    | _, _ => 37 :: unescape (a :: b :: rest)
  | c :: rest => String.utf8EncodeChar c ++ unescape rest

end Backfill.Url
