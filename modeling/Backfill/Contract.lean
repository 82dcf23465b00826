import Backfill.Query
import Backfill.ImportState.Record
import Backfill.Document.JsonReader
import Backfill.Log

/-!
# Contracts

The entities file lists vault contracts with the feed that is imported from each.
-/

namespace Backfill

/-- One contract and one of its feeds. -/
structure Contract where
  productId : String
  chain : String
  address : String
  feed : ProductFeed
  createdAtBlock : UInt64
  createdAt : Timestamp
  /-- At the end of its life. -/
  eol : Bool

namespace Contract

def fieldNames : List String :=
  ["product_id", "chain", "contract_address", "feed", "created_at_block", "created_at", "eol"]

/-- A feed by name, or as the only field of a record with nothing in it. -/
def feedOfDocument? (d : Json) : Option ProductFeed :=
  match d with
  | .fields [(name, d)] => if d.isNull then ProductFeed.read? name else none
  | d => d.text?.bind ProductFeed.read?

def ofDocument? (d : Json) : Option Contract := do
  match ← d.record? fieldNames with
  | [some id, some chain, some address, some feed, some block, some date, eol] =>
    return ⟨← id.text?, ← chain.text?, ← address.text?, ← feedOfDocument? feed, ← block.word?,
      ← Timestamp.ofDocument? date, ← eol.elim (some false) Document.bool?⟩
  | _ => none

def toJson (c : Contract) : Json :=
  .fields (fieldNames.zip
    [Json.ofText c.productId, Json.ofText c.chain, Json.ofText c.address, Json.ofText c.feed.text,
      Json.ofWord c.createdAtBlock, c.createdAt.toJson, Json.ofBool c.eol])

/-- The key under which the feed's import state is kept. -/
def importKey (c : Contract) : String := s!"product:{c.feed.text}:{c.productId}"

/-- The contract as an entity to import. -/
def entity (c : Contract) : Entity where
  importKey := c.importKey
  address := c.address
  live := !c.eol
  data := .product c.feed
    ⟨c.productId, c.chain, c.address, c.createdAtBlock, c.createdAt, Coverage.empty Timestamp.epoch⟩

/-- The contracts of one chain in an entities file, in its order. -/
def ofFile? (content chain : String) : Option (List Contract) := do
  let all ← (← Json.read? content).list? ofDocument?
  return all.filter (·.chain == chain)

/-- The contracts of one chain in the entities file at a path, given the file's content if it can be read. -/
def load (path chain : String) (content : Option String) : Except IndexerError (List Contract) :=
  match content with
  | none => .error (.other s!"Failed to read entities file {path}")
  | some content =>
    match ofFile? content chain with
    | none => .error (.other s!"Failed to parse entities file {path}")
    | some contracts => .ok contracts

/-- The log entry of a file that was read. -/
def fileEntry (path : String) (entities : Nat) : Log.Entry where
  level := .debug
  target := "vault_indexer::connector::contract"
  message := "Entities file read"
  fields := [("path", .worded path), ("entities", .count entities)]

end Contract

end Backfill
