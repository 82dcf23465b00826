import Backfill.Document.Json

/-!
# Reading JSON

The grammar of JSON on characters. Every step takes at least one character, so the length of the text
bounds the number of steps.
-/

namespace Backfill.Json

open Text

def isSpace (c : Char) : Bool := c == ' ' || c == '\n' || c == '\t' || c == '\r'

def skipSpace (cs : List Char) : List Char := cs.dropWhile isSpace

/-! ## Texts -/

/-- Four hexadecimal digits. -/
def hex4? : List Char → Option (Nat × List Char)
  | a :: b :: c :: d :: rest => do
    let n := [← hexDigit? a, ← hexDigit? b, ← hexDigit? c, ← hexDigit? d].foldl (· * 16 + ·) 0
    return (n, rest)
  | _ => none

/-- One piece of a text in quotes: a character, or half of a surrogate pair that lacks its other half. -/
def readUnit? : List Char → Option (Option Char × List Char)
  | '\\' :: c :: rest =>
    match c with
    | '"' => some (some '"', rest)
    | '\\' => some (some '\\', rest)
    | '/' => some (some '/', rest)
    | 'b' => some (some '\x08', rest)
    | 'f' => some (some '\x0c', rest)
    | 'n' => some (some '\n', rest)
    | 'r' => some (some '\r', rest)
    | 't' => some (some '\t', rest)
    | 'u' => do
      let (n, rest) ← hex4? rest
      if 0xD800 ≤ n ∧ n ≤ 0xDBFF then
        match rest with
        | '\\' :: 'u' :: rest' =>
          let (m, rest') ← hex4? rest'
          if 0xDC00 ≤ m ∧ m ≤ 0xDFFF then
            return (some (Char.ofNat (0x10000 + (n - 0xD800) * 0x400 + (m - 0xDC00))), rest')
          else return (none, rest)
        | _ => return (none, rest)
      else if 0xDC00 ≤ n ∧ n ≤ 0xDFFF then return (none, rest)
      else return (some (Char.ofNat n), rest)
    | _ => none
  | c :: rest => if c.toNat < 32 then none else some (some c, rest)
  | [] => none

/-- The rest of a text after its opening quote. -/
def readText? : Nat → List Char → List Char → Bool → Option (JsonScalar × List Char)
  | 0, _, _, _ => none
  | fuel + 1, cs, done, broken =>
    match cs with
    | '"' :: rest => some (if broken then .broken else .text (String.ofList done.reverse), rest)
    | cs => do
      let (c, rest) ← readUnit? cs
      match c with
      | some c => readText? fuel rest (c :: done) broken
      | none => readText? fuel rest done true

/-! ## Numbers -/

/-- Digits of a fraction or exponent; there must be one. -/
def readDigits? (cs : List Char) : Option (List Char × List Char) :=
  let digits := cs.takeWhile Char.isDigit
  if digits.isEmpty then none else some (digits, cs.drop digits.length)

def digitsValue (ds : List Char) : Nat := ds.foldl (fun n c => n * 10 + (c.toNat - 48)) 0

/-- The number that the digits after `n` make up as long as it fits in a word, and how many are left. -/
def leadingDigits (n : Nat) : List Char → Nat × Nat
  | [] => (n, 0)
  | c :: rest =>
    let longer := n * 10 + (c.toNat - 48)
    if longer ≤ maxWord then leadingDigits longer rest else (n, rest.length + 1)

/-- A number in floating point; none stands for what is too large. -/
def floatOf (negative : Bool) (digits : Nat) (e : Int) : JsonScalar :=
  (Decimal.bits? negative digits e).elim .broken .float

/-- The scalar of a number without fraction and exponent. -/
def wholeNumber (negative : Bool) (whole : List Char) : JsonScalar :=
  let (n, left) := leadingDigits 0 whole
  if left = 0 ∧ !negative then .word n.toUInt64
  else if left = 0 ∧ 1 ≤ n ∧ n ≤ maxSigned + 1 then .negative n.toUInt64
  else floatOf negative n left

/-- The scalar of a number with a fraction or an exponent. Digits that do not fit in a word count as
zeros before the point and as none behind it. -/
def decimalNumber (negative : Bool) (whole fraction : List Char) (e : Int) : JsonScalar :=
  let (n, left) := leadingDigits 0 whole
  let (n, ignored) := leadingDigits n fraction
  floatOf negative n (left - (fraction.length - ignored : Nat) + max (-100000) (min 100000 e))

/-- The part of a number after its sign. -/
def readNumber? (negative : Bool) (cs : List Char) : Option (JsonScalar × List Char) := do
  let (whole, cs) ← readDigits? cs
  if whole.length > 1 ∧ whole.head? = some '0' then none
  let (fraction, cs) ← match cs with
    | '.' :: rest => readDigits? rest
    | _ => some ([], cs)
  let (e, cs) ← match cs with
    | c :: rest =>
      if c = 'e' ∨ c = 'E' then
        let (sign, rest) : Int × List Char := match rest with
          | '+' :: r => (1, r)
          | '-' :: r => (-1, r)
          | r => (1, r)
        (readDigits? rest).map fun (ds, r) => (some (sign * digitsValue ds), r)
      else some (none, cs)
    | [] => some (none, cs)
  if fraction.isEmpty ∧ e.isNone then
    return (wholeNumber negative whole, cs)
  else
    return (decimalNumber negative whole fraction (e.getD 0), cs)

/-! ## Documents -/

mutual

/-- A document after optional space. -/
def readValue? : Nat → List Char → Option (Json × List Char)
  | 0, _ => none
  | fuel + 1, cs =>
    match skipSpace cs with
    | '"' :: rest => (readText? (rest.length + 1) rest [] false).map fun (s, r) => (.scalar s, r)
    | '-' :: rest => (readNumber? true rest).map fun (s, r) => (.scalar s, r)
    | '[' :: rest =>
      match skipSpace rest with
      | ']' :: rest => some (.items [], rest)
      | rest => readItems? fuel rest []
    | '\x7b' :: rest =>
      match skipSpace rest with
      | '\x7d' :: rest => some (.fields [], rest)
      | rest => readFields? fuel rest []
    | cs =>
      if cs.head?.any Char.isDigit then (readNumber? false cs).map fun (s, r) => (.scalar s, r)
      else ((strip? "null".toList cs).map fun r => (null, r)) <|>
        ((strip? "true".toList cs).map fun r => (ofBool true, r)) <|>
        ((strip? "false".toList cs).map fun r => (ofBool false, r))

/-- The items of a list from the next one on. -/
def readItems? : Nat → List Char → List Json → Option (Json × List Char)
  | 0, _, _ => none
  | fuel + 1, cs, done => do
    let (x, cs) ← readValue? fuel cs
    match skipSpace cs with
    | ',' :: rest => readItems? fuel rest (x :: done)
    | ']' :: rest => some (.items (x :: done).reverse, rest)
    | _ => none

/-- The fields of a record from the next one on. -/
def readFields? : Nat → List Char → List (String × Json) → Option (Json × List Char)
  | 0, _, _ => none
  | fuel + 1, cs, done =>
    match skipSpace cs with
    | '"' :: rest => do
      let (name, cs) ← readText? (rest.length + 1) rest [] false
      let name ← Scalar.text? name
      match skipSpace cs with
      | ':' :: rest =>
        let (x, cs) ← readValue? fuel rest
        match skipSpace cs with
        | ',' :: rest => readFields? fuel rest ((name, x) :: done)
        | '\x7d' :: rest => some (.fields ((name, x) :: done).reverse, rest)
        | _ => none
      | _ => none
    | _ => none

end

/-- The document that is the whole text. -/
def read? (s : String) : Option Json :=
  let cs := s.toList
  match readValue? (cs.length + 1) cs with
  | some (d, rest) => if (skipSpace rest).isEmpty then some d else none
  | none => none

/-- The value that is the whole text. -/
def parse? (s : String) : Option Json := (read? s).bind value?

end Backfill.Json
