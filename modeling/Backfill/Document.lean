/-!
# Documents

A document is a tree of lists and of fields in the order written, with scalars at the leaves. The same
tree serves every format; a format says how its scalars read as truth values, numbers and texts.
-/

namespace Backfill

/-- A tree with scalars of type `σ`; fields keep their order and repetitions. -/
inductive Document (σ : Type) where
  | scalar (s : σ)
  | items (xs : List (Document σ))
  | fields (xs : List (String × Document σ))

/-- How the scalars of a format are read. -/
class Scalar (σ : Type) where
  isNull : σ → Bool
  bool? : σ → Option Bool
  /-- A natural number below 2⁶⁴. -/
  word? : σ → Option UInt64
  /-- A text, also where a lenient format lets an unquoted scalar stand for one. -/
  text? : σ → Option String
  /-- A scalar that a format takes for a text when nothing says what to expect. -/
  plainText? : σ → Option String
  /-- A scalar that also stands for a list or record with nothing in it. -/
  isBlank : σ → Bool
  /-- Whether a record may be given as the list of its fields. -/
  listsAreRecords : Bool

namespace Document

variable {σ : Type} [Scalar σ]

def isNull : Document σ → Bool
  | .scalar s => Scalar.isNull s
  | _ => false

def bool? : Document σ → Option Bool
  | .scalar s => Scalar.bool? s
  | _ => none

def word? : Document σ → Option UInt64
  | .scalar s => Scalar.word? s
  | _ => none

def text? : Document σ → Option String
  | .scalar s => Scalar.text? s
  | _ => none

def items? : Document σ → Option (List (Document σ))
  | .items xs => some xs
  | .scalar s => if Scalar.isBlank s then some [] else none
  | _ => none

def fields? : Document σ → Option (List (String × Document σ))
  | .fields xs => some xs
  | .scalar s => if Scalar.isBlank s then some [] else none
  | _ => none

/-- Null as nothing, anything else through `read`. -/
def nullable? {β : Type} (read : Document σ → Option β) (d : Document σ) : Option (Option β) :=
  if d.isNull then some none else (read d).map some

/-- Every item of a list. -/
def list? {β : Type} (read : Document σ → Option β) (d : Document σ) : Option (List β) := do
  (← d.items?).mapM read

/-- The values of a record's fields, each at most once, in the order of `names`; unknown names are
skipped. Some formats also take the list of the fields in order. -/
def record? (names : List String) (d : Document σ) : Option (List (Option (Document σ))) :=
  match d.fields?, d.items? with
  | some xs, _ =>
    names.mapM fun name =>
      match xs.filter (·.1 == name) with
      | [] => some none
      | [(_, d)] => some (some d)
      | _ => none
  | none, some xs =>
    if Scalar.listsAreRecords σ && decide (xs.length ≤ names.length) then
      some (xs.map some ++ List.replicate (names.length - xs.length) none)
    else none
  | none, none => none

end Document

end Backfill
