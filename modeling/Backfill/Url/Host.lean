import Backfill.Url.Domain

/-!
# Hosts

A host is a domain or an address. A domain whose last label is a number is an address of four bytes,
each part of which may be decimal, octal or hexadecimal; an address in brackets has eight groups.
-/

namespace Backfill.Url

open Text

/-! ## Addresses of four bytes -/

/-- The value of a text in a base, if it consists of digits. -/
def inBase? (base : Nat) (cs : List Char) : Option Nat :=
  cs.foldlM (fun n c => do
    let d ← hexDigit? c
    if d < base then some (n * base + d) else none) 0

/-- A part of an address: decimal, octal after a zero, hexadecimal after `0x`. -/
def addressPart? : List Char → Option Nat
  | [] => none
  | '0' :: 'x' :: rest => inBase? 16 rest
  | '0' :: 'X' :: rest => inBase? 16 rest
  | '0' :: c :: rest => inBase? 8 (c :: rest)
  | cs => inBase? 10 cs

/-- The parts between dots; one empty part at the end does not count. -/
def addressParts (cs : List Char) : List (List Char) :=
  match (labels cs).reverse with
  | [] :: rest => rest.reverse
  | all => all.reverse

/-- Whether a domain has to be an address. -/
def endsInNumber (cs : List Char) : Bool :=
  match (addressParts cs).getLast? with
  | none => false
  | some last => (!last.isEmpty && last.all Char.isDigit) || (addressPart? last).isSome

/-- The four bytes of an address as one number. -/
def address4? (cs : List Char) : Option Nat := do
  let numbers ← (addressParts cs).mapM addressPart?
  let last ← numbers.getLast?
  let front := numbers.dropLast
  if 3 < front.length ∨ front.any (255 < ·) ∨ Nat.pow 256 (4 - front.length) ≤ last then none
  return front.zipIdx.foldr (fun (n, i) sum => n * Nat.pow 256 (3 - i) + sum) last

def renderAddress4 (n : Nat) : List Char :=
  s!"{n / Nat.pow 2 24}.{n / Nat.pow 2 16 % 256}.{n / Nat.pow 2 8 % 256}.{n % 256}".toList

/-! ## Addresses of eight groups -/

/-- A decimal byte without a zero in front. -/
def byte? (cs : List Char) : Option Nat := do
  if cs.isEmpty ∨ 3 < cs.length ∨ (cs.length > 1 ∧ cs.head? = some '0') then none
  let n ← inBase? 10 cs
  if n < 256 then some n else none

/-- Groups between colons, the last of which may be an address of four bytes. -/
def groups? (cs : List Char) : Option (List Nat) := do
  if cs.isEmpty then return []
  let parts := (String.ofList cs).splitOn ":" |>.map String.toList
  let group? (part : List Char) : Option Nat := if part.isEmpty ∨ 4 < part.length then none else inBase? 16 part
  let front ← parts.dropLast.mapM group?
  let last ← parts.getLast?
  if last.contains '.' then
    match ← (labels last).mapM byte? with
    | [a, b, c, d] => return front ++ [256 * a + b, 256 * c + d]
    | _ => none
  else return front ++ [← group? last]

/-- The eight groups; a double colon stands for at least one group of zero. -/
def address6? (cs : List Char) : Option (List Nat) := do
  match (String.ofList cs).splitOn "::" with
  | [all] =>
    let groups ← groups? all.toList
    if groups.length = 8 then some groups else none
  | [front, back] =>
    if front.toList.contains '.' then none
    let front ← groups? front.toList
    let back ← groups? back.toList
    let missing := 8 - (front.length + back.length)
    if missing = 0 then none else some (front ++ List.replicate missing 0 ++ back)
  | _ => none

/-- Start and length of the first longest run of zeros, if it has two groups or more. -/
def longestZeros (groups : List Nat) : Nat × Nat :=
  let runs := (List.range groups.length).map fun i => (i, ((groups.drop i).takeWhile (· == 0)).length)
  let best := runs.foldl (fun best run => if best.2 < run.2 then run else best) (0, 0)
  if best.2 < 2 then (groups.length, 0) else best

def hexText (n : Nat) : List Char := Nat.toDigits 16 n

def renderAddress6 (groups : List Nat) : List Char :=
  let (start, length) := longestZeros groups
  let text (gs : List Nat) : List Char := ":".toList.intercalate (gs.map hexText)
  if length = 0 then text groups
  else text (groups.take start) ++ "::".toList ++ text (groups.drop (start + length))

/-! ## Hosts -/

/-- The host between brackets. -/
def bracketed? (cs : List Char) : Option (List Char) :=
  match cs.getLast? with
  | some ']' => (address6? cs.dropLast).map fun groups => '[' :: renderAddress6 groups ++ [']']
  | _ => none

/-- The normal form of a host of a web scheme. -/
def host? (cs : List Char) : Option (List Char) := do
  match cs with
  | '[' :: rest => bracketed? rest
  | cs =>
    let bytes := unescape cs
    let text := (String.fromUTF8? (ByteArray.mk bytes.toArray)).getD "\uFFFD"
    let domain ← domain? text.toList
    if domain.isEmpty then none
    if endsInNumber domain then (address4? domain).map renderAddress4 else some domain

/-- The host of any other scheme, taken as it is. -/
def opaqueHost? (cs : List Char) : Option (List Char) :=
  match cs with
  | '[' :: rest => bracketed? rest
  | cs =>
    if cs.any fun c => ['\x00', '\t', '\n', '\r', ' ', '#', '/', ':', '<', '>', '?', '@', '[', '\\', ']', '^',
        '|'].contains c then none
    else some (escape isControl cs)

end Backfill.Url
