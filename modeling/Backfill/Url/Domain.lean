import Backfill.Text.Lowercase
import Backfill.Url.Escape

/-!
# Domain names

A domain is compared in lower case, and a label with letters outside ASCII is written in an ASCII form
that starts with `xn--`.
-/

namespace Backfill.Url

/-! ## The ASCII form of a label -/

/-- The next bias after a difference was written. -/
def adapt (delta points : Nat) (first : Bool) : Nat :=
  let rec shrink : Nat → Nat → Nat → Nat
    | 0, k, delta => k + 36 * delta / (delta + 38)
    | fuel + 1, k, delta =>
      if 455 < delta then shrink fuel (k + 36) (delta / 35) else k + 36 * delta / (delta + 38)
  let delta := if first then delta / 700 else delta / 2
  shrink delta 0 (delta + delta / points)

/-- The letter or digit for a value below 36. -/
def labelDigit (n : Nat) : Char := if n < 26 then Char.ofNat (97 + n) else Char.ofNat (22 + n)

/-- The value of a letter or digit. -/
def labelDigit? (c : Char) : Option Nat :=
  if '0' ≤ c ∧ c ≤ '9' then some (c.toNat - 22)
  else if 'a' ≤ c ∧ c ≤ 'z' then some (c.toNat - 97)
  else if 'A' ≤ c ∧ c ≤ 'Z' then some (c.toNat - 65)
  else none

/-- The weight limit at a place. -/
def threshold (k bias : Nat) : Nat := min 26 (max 1 (k - bias))

/-- A number as a variable-length run of digits. -/
def variableLength : Nat → Nat → Nat → Nat → List Char
  | 0, q, _, _ => [labelDigit q]
  | fuel + 1, q, k, bias =>
    let t := threshold k bias
    if q < t then [labelDigit q]
    else labelDigit (t + (q - t) % (36 - t)) :: variableLength fuel ((q - t) / (36 - t)) (k + 36) bias

/-- What encoding carries along: the last value, the distance, the bias, how many are written. -/
structure Encoder where
  value : Nat
  delta : Nat
  bias : Nat
  written : Nat
  text : List Char

/-- Writes every occurrence of one value. -/
def Encoder.writeValue (basic : Nat) (cs : List Nat) (m : Nat) (e : Encoder) : Encoder :=
  let e := { e with delta := e.delta + (m - e.value) * (e.written + 1), value := m }
  let e := cs.foldl (fun (e : Encoder) c =>
    if c < m then { e with delta := e.delta + 1 }
    else if c = m then
      { e with
        text := e.text ++ variableLength 64 e.delta 36 e.bias
        bias := adapt e.delta (e.written + 1) (e.written == basic)
        delta := 0
        written := e.written + 1 }
    else e) e
  { e with delta := e.delta + 1, value := m + 1 }

/-- The ASCII form of a label, without its start. -/
def punycode (label : List Char) : List Char :=
  let cs := label.map Char.toNat
  let basic := label.filter (·.toNat < 128)
  let others := ((cs.filter (128 ≤ ·)).mergeSort (· ≤ ·)).eraseDups
  let start := if basic.isEmpty then [] else basic ++ ['-']
  (others.foldl (fun (e : Encoder) m => e.writeValue basic.length cs m) ⟨128, 0, 72, basic.length, start⟩).text

/-- Reads one run of digits: the sum and the rest. -/
def readVariable? : List Char → Nat → Nat → Nat → Nat → Option (Nat × List Char)
  | [], _, _, _, _ => none
  | c :: rest, sum, weight, k, bias => do
    let digit ← labelDigit? c
    let sum := sum + digit * weight
    if Nat.pow 2 32 ≤ sum then none
    let t := threshold k bias
    if digit < t then some (sum, rest) else readVariable? rest sum (weight * (36 - t)) (k + 36) bias

/-- Inserts the characters that the rest of an ASCII form describes. -/
def insertAll? : Nat → List Char → List Nat → Nat → Nat → Nat → Option (List Nat)
  | _, [], out, _, _, _ => some out
  | 0, _, _, _, _, _ => none
  | fuel + 1, cs, out, n, i, bias => do
    let (sum, rest) ← readVariable? cs i 1 36 bias
    let points := out.length + 1
    let n := n + sum / points
    let place := sum % points
    if 0x10FFFF < n then none
    insertAll? fuel rest (out.take place ++ n :: out.drop place) n (place + 1)
      (adapt (sum - i) points (i == 0))

/-- The label that an ASCII form, without its start, stands for. -/
def ofPunycode? (cs : List Char) : Option (List Char) := do
  let basic := if cs.contains '-' then (cs.reverse.dropWhile (· ≠ '-')).tail.reverse else []
  let rest := if cs.contains '-' then (cs.reverse.takeWhile (· ≠ '-')).reverse else cs
  let out ← insertAll? (cs.length + 1) rest (basic.map Char.toNat) 128 0 72
  return out.map Char.ofNat

/-! ## Domains -/

/-- Lower case; wide forms become plain ones, every full stop a dot, and soft hyphens vanish. -/
def foldChar (c : Char) : List Char :=
  let n := c.toNat
  if n = 0xAD then []
  else if n = 0x3002 ∨ n = 0xFF61 then ['.']
  else if n = 0xA0 ∨ n = 0x3000 then [' ']
  else if 0xFF01 ≤ n ∧ n ≤ 0xFF5E then [(Char.ofNat (n - 0xFEE0)).toLower]
  else [Text.lowerChar c]

/-- What no domain may hold. -/
def notInDomain (c : Char) : Bool :=
  isControl c || c == '\uFFFD' ||
    [' ', '#', '%', '/', ':', '<', '>', '?', '@', '[', '\\', ']', '^', '|'].contains c

/-- Splits at every dot. -/
def labels (cs : List Char) : List (List Char) :=
  (String.ofList cs).splitOn "." |>.map String.toList

def asciiLabel? (label : List Char) : Option (List Char) :=
  match Text.strip? "xn--".toList label with
  | some rest => do
    let decoded ← ofPunycode? rest
    if decoded.all (·.toNat < 128) then none else some label
  | none => if label.all (·.toNat < 128) then some label else some ("xn--".toList ++ punycode label)

/-- The form in which domains are compared. -/
def domain? (cs : List Char) : Option (List Char) := do
  let folded := cs.flatMap foldChar
  if folded.any notInDomain then none
  let labels ← (labels folded).mapM asciiLabel?
  return ".".toList.intercalate labels

end Backfill.Url
