import Backfill.Document
import Backfill.Decimal
import Backfill.Text.Blank

/-!
# JSON documents

Numbers are 64-bit words with or without a sign where they fit, and binary floating-point otherwise.
A leaf that the grammar admits but no value stands for, such as half of a surrogate pair, is read as
`broken`: it is refused only where it is looked at.
-/

namespace Backfill

/-- The leaves of a JSON document. -/
inductive JsonScalar where
  | null
  | bool (b : Bool)
  | word (n : UInt64)
  /-- The number `-n`, from -1 down to -2⁶³. -/
  | negative (n : UInt64)
  /-- The bits of a floating-point number. -/
  | float (bits : UInt64)
  | text (s : String)
  | broken
  deriving DecidableEq, Repr, Inhabited

instance : Scalar JsonScalar where
  isNull s := s == .null
  bool? | .bool b => some b
        | _ => none
  word? | .word n => some n
        | _ => none
  text? | .text s => some s
        | _ => none
  plainText? | .text s => some s
             | _ => none
  isBlank _ := false
  listsAreRecords := true

abbrev Json := Document JsonScalar

namespace Json

def null : Json := .scalar .null

def ofBool (b : Bool) : Json := .scalar (.bool b)

def ofText (s : String) : Json := .scalar (.text s)

def ofWord (n : UInt64) : Json := .scalar (.word n)

/-- A natural number, which the caller keeps below 2⁶⁴. -/
def ofNat (n : Nat) : Json := .scalar (.word n.toUInt64)

def ofInt (i : Int) : Json :=
  if i < 0 then .scalar (.negative i.natAbs.toUInt64) else .scalar (.word i.natAbs.toUInt64)

def ofOption {β : Type} (write : β → Json) : Option β → Json
  | none => null
  | some x => write x

def ofList {β : Type} (write : β → Json) (xs : List β) : Json := .items (xs.map write)

instance : Inhabited Json := ⟨null⟩

/-! ## Values -/

mutual

/-- Whether some leaf is broken, at whatever depth. -/
def hasBroken : Json → Bool
  | .scalar s => s == .broken
  | .items xs => anyBroken xs
  | .fields xs => anyBrokenField xs

def anyBroken : List Json → Bool
  | [] => false
  | x :: xs => hasBroken x || anyBroken xs

def anyBrokenField : List (String × Json) → Bool
  | [] => false
  | (_, x) :: xs => hasBroken x || anyBrokenField xs

end

mutual

/-- How deep lists and records are nested. -/
def depth : Json → Nat
  | .scalar _ => 0
  | .items xs => depthOf xs + 1
  | .fields xs => depthOfFields xs + 1

def depthOf : List Json → Nat
  | [] => 0
  | x :: xs => max (depth x) (depthOf xs)

def depthOfFields : List (String × Json) → Nat
  | [] => 0
  | (_, x) :: xs => max (depth x) (depthOfFields xs)

end

/-- Sets a field: in its place when the name is there, at the end otherwise. -/
def setField (name : String) (x : Json) : List (String × Json) → List (String × Json)
  | [] => [(name, x)]
  | (n, y) :: rest => if n = name then (n, x) :: rest else (n, y) :: setField name x rest

mutual

/-- Of fields with one name only the last value stays, in the place of the first. -/
def distinct : Json → Json
  | .scalar s => .scalar s
  | .items xs => .items (distinctItems xs)
  | .fields xs => .fields (distinctFields xs [])

def distinctItems : List Json → List Json
  | [] => []
  | x :: xs => distinct x :: distinctItems xs

def distinctFields : List (String × Json) → List (String × Json) → List (String × Json)
  | [], done => done
  | (n, x) :: xs, done => distinctFields xs (setField n (distinct x) done)

end

/-- The deepest nesting that is read as a value. -/
def maxDepth : Nat := 127

/-- The value of a document: nothing when a leaf is broken or the nesting too deep. -/
def value? (d : Json) : Option Json :=
  if hasBroken d || decide (maxDepth < depth d) then none else some (distinct d)

/-- The value of a field of a record. -/
def field? (name : String) : Json → Option Json
  | .fields xs => (xs.find? (·.1 == name)).map (·.2)
  | _ => none

mutual

/-- The document with the fields of every record in ascending order of their names. -/
def sorted : Json → Json
  | .scalar s => .scalar s
  | .items xs => .items (sortedItems xs)
  | .fields xs => .fields ((sortedFields xs).mergeSort fun a b => decide (a.1 ≤ b.1))

def sortedItems : List Json → List Json
  | [] => []
  | x :: xs => sorted x :: sortedItems xs

def sortedFields : List (String × Json) → List (String × Json)
  | [] => []
  | (n, x) :: xs => (n, sorted x) :: sortedFields xs

end

end Json

end Backfill
