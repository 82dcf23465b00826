import Backfill.ImportState
import Backfill.Timestamp.Text
import Backfill.Document.Json

/-!
# Import states as documents

The stored form of an import state. The payload carries its tag beside its fields; a record may also be
given as a list of its fields in order, the tag first. A document of the store keeps numbers in 63 bits
and refuses larger ones.
-/

namespace Backfill

/-- An axis whose values are stored. -/
class RecordedAxis (α : Type) extends StoredAxis α where
  ofDocument? : Json → Option α
  toJson : α → Json

/-- Reads a stored timestamp. -/
def Timestamp.ofDocument? (d : Json) : Option Timestamp := d.text?.bind Timestamp.read?

def Timestamp.toJson (t : Timestamp) : Json := Json.ofText t.text

instance : RecordedAxis UInt64 where
  ofDocument? := Document.word?
  toJson := Json.ofWord

instance : RecordedAxis Timestamp where
  ofDocument? := Timestamp.ofDocument?
  toJson := Timestamp.toJson

/-! ## Reading -/

section

variable {α : Type} [RecordedAxis α]

def Range.ofDocument? (d : Json) : Option (Range α) := do
  match ← d.record? ["from", "to"] with
  | [some a, some b] => return ⟨← RecordedAxis.ofDocument? a, ← RecordedAxis.ofDocument? b⟩
  | _ => none

def Coverage.fieldNames : List String := ["coveredRanges", "toRetry", "lastImportDate"]

def Coverage.ofDocument? (d : Json) : Option (Coverage α) := do
  match ← d.record? fieldNames with
  | [some covered, some toRetry, some last] =>
    return ⟨← covered.list? Range.ofDocument?, ← toRetry.list? Range.ofDocument?,
      ← Timestamp.ofDocument? last⟩
  | _ => none

end

def ProductData.fieldNames : List String :=
  ["productId", "chain", "contractAddress", "contractCreatedAtBlock", "contractCreatedDate", "ranges"]

def ProductData.ofDocument? (d : Json) : Option ProductData := do
  match ← d.record? fieldNames with
  | [some id, some chain, some address, some block, some date, some ranges] =>
    return ⟨← id.text?, ← chain.text?, ← address.text?, ← block.word?, ← Timestamp.ofDocument? date,
      ← Coverage.ofDocument? ranges⟩
  | _ => none

def PriceFeedData.fieldNames : List String := ["priceFeedId", "firstDate", "ranges"]

def PriceFeedData.ofDocument? (d : Json) : Option PriceFeedData := do
  match ← d.record? fieldNames with
  | [some id, some date, some ranges] =>
    return ⟨← id.text?, ← Timestamp.ofDocument? date, ← Coverage.ofDocument? ranges⟩
  | _ => none

namespace ImportData

/-- The field of the tag. -/
def tagField : String := "type"

/-- Takes the tag off a payload: its only field of that name, or the first item of a list. -/
def untag? : Json → Option (String × Json)
  | .fields xs =>
    match xs.filter (·.1 == tagField) with
    | [(_, d)] => d.text?.map fun tag => (tag, .fields (xs.filter (·.1 != tagField)))
    | _ => none
  | .items (d :: rest) => d.text?.map fun tag => (tag, .items rest)
  | _ => none

/-- Reads a tagged payload, which must be a value in every part, looked at or not. -/
def ofDocument? (d : Json) : Option ImportData := do
  if d.hasBroken ∨ Json.maxDepth ≤ d.depth then none
  let (tag, rest) ← untag? d
  if tag = priceFeedTag then return .priceFeed (← PriceFeedData.ofDocument? rest)
  else
    let feed ← ProductFeed.all.find? (·.tag == tag)
    return .product feed (← ProductData.ofDocument? rest)

end ImportData

def ImportState.fieldNames : List String := ["importKey", "importData"]

def ImportState.ofDocument? (d : Json) : Option ImportState := do
  match ← d.record? fieldNames with
  | [some key, some data] => return ⟨← key.text?, ← ImportData.ofDocument? data⟩
  | _ => none

/-! ## Writing -/

section

variable {α : Type} [RecordedAxis α]

def Range.toJson (r : Range α) : Json :=
  .fields [("from", RecordedAxis.toJson r.first), ("to", RecordedAxis.toJson r.last)]

def Coverage.toJson (c : Coverage α) : Json :=
  .fields [("coveredRanges", Json.ofList Range.toJson c.covered),
    ("toRetry", Json.ofList Range.toJson c.toRetry), ("lastImportDate", c.lastImport.toJson)]

end

/-- Tag first, then the fields. -/
def ImportData.toJson (d : ImportData) : Json :=
  match d with
  | .product feed data =>
    .fields [(tagField, Json.ofText feed.tag), ("productId", Json.ofText data.productId),
      ("chain", Json.ofText data.chain), ("contractAddress", Json.ofText data.address),
      ("contractCreatedAtBlock", Json.ofWord data.createdAtBlock),
      ("contractCreatedDate", data.createdAt.toJson), ("ranges", data.ranges.toJson)]
  | .priceFeed data =>
    .fields [(tagField, Json.ofText priceFeedTag), ("priceFeedId", Json.ofText data.priceFeedId),
      ("firstDate", data.firstDate.toJson), ("ranges", data.ranges.toJson)]

def ImportState.toJson (s : ImportState) : Json :=
  .fields [("importKey", Json.ofText s.importKey), ("importData", s.data.toJson)]

/-! ## The store's documents -/

namespace ImportState

/-- The largest number that a document of the store holds. -/
def maxStored : Nat := maxSigned

mutual

/-- A document with its numbers marked as 64-bit; nothing when one is too large. -/
def stored? : Json → Option Json
  | .scalar (.word n) =>
    if n.toNat ≤ maxStored then some (.fields [("$numberLong", Json.ofText (toString n.toNat))]) else none
  | .scalar s => some (.scalar s)
  | .items xs => (storedItems? xs).map .items
  | .fields xs => (storedFields? xs).map .fields

def storedItems? : List Json → Option (List Json)
  | [] => some []
  | x :: xs => do return (← stored? x) :: (← storedItems? xs)

def storedFields? : List (String × Json) → Option (List (String × Json))
  | [] => some []
  | (n, x) :: xs => do return (n, ← stored? x) :: (← storedFields? xs)

end

/-- The state as a document of the store, in the form that marks numbers. -/
def document? (s : ImportState) : Option Json := stored? s.toJson

/-- The filter that finds the state by its key. -/
def filterFor (importKey : String) : Json := .fields [("_id", Json.ofText importKey)]

end ImportState

end Backfill
