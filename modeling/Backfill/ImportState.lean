import Backfill.Coverage
import Backfill.Timestamp.Text
import Backfill.Error

/-!
# Import states

The record kept for every tracked entity. Three product feeds record block ranges and share one
payload; a price feed records ranges of time.
-/

namespace Backfill

/-- The feeds of a product contract. -/
inductive ProductFeed where
  | investment
  | shareRate
  | rewards
  deriving DecidableEq, Repr

namespace ProductFeed

def text : ProductFeed → String
  | investment => "investment"
  | shareRate => "share-rate"
  | rewards => "rewards"

def all : List ProductFeed := [investment, shareRate, rewards]

def read? (s : String) : Option ProductFeed := all.find? (·.text == s)

/-- The tag of the record's payload. -/
def tag (f : ProductFeed) : String := "product:" ++ f.text

end ProductFeed

/-- What is known about a product contract. -/
structure ProductData where
  productId : String
  chain : String
  address : String
  createdAtBlock : UInt64
  createdAt : Timestamp
  ranges : Coverage UInt64
  deriving DecidableEq

/-- What is known about a price feed. -/
structure PriceFeedData where
  priceFeedId : String
  firstDate : Timestamp
  ranges : Coverage Timestamp
  deriving DecidableEq

/-- What an import state tracks. -/
inductive ImportData where
  | product (feed : ProductFeed) (data : ProductData)
  | priceFeed (data : PriceFeedData)
  deriving DecidableEq

namespace ImportData

def priceFeedTag : String := "oracle:price"

/-- The tag under which the payload is stored. -/
def tag : ImportData → String
  | product feed _ => feed.tag
  | priceFeed _ => priceFeedTag

def product? : ImportData → Option ProductData
  | product _ data => some data
  | priceFeed _ => none

def lastImport : ImportData → Timestamp
  | product _ data => data.ranges.lastImport
  | priceFeed data => data.ranges.lastImport

/-- The same subject with nothing imported yet. -/
def fresh (now : Timestamp) : ImportData → ImportData
  | product feed data => product feed { data with ranges := Coverage.empty now }
  | priceFeed data => priceFeed { data with ranges := Coverage.empty now }

end ImportData

/-- The record of one tracked entity. -/
structure ImportState where
  importKey : String
  data : ImportData
  deriving DecidableEq

/-- An axis on which some import states record their ranges. -/
class StoredAxis (α : Type) extends Axis α where
  /-- The name of the axis in messages. -/
  kind : String
  /-- A value as it stands in log entries. -/
  text : α → String
  coverage? : ImportData → Option (Coverage α)
  setCoverage : Coverage α → ImportData → ImportData

instance : StoredAxis UInt64 where
  kind := "block"
  text n := toString n.toNat
  coverage?
    | .product _ data => some data.ranges
    | .priceFeed _ => none
  setCoverage c
    | .product feed data => .product feed { data with ranges := c }
    | d => d

instance : StoredAxis Timestamp where
  kind := "date"
  text := Timestamp.text
  coverage?
    | .product .. => none
    | .priceFeed data => some data.ranges
  setCoverage c
    | .priceFeed data => .priceFeed { data with ranges := c }
    | d => d

namespace ImportState

variable {α : Type} [StoredAxis α]

/-- The state with outcomes of its own key merged in; an error when it records another kind of range. -/
def apply (s : ImportState) (outcomes : List (Outcome α)) (now : Timestamp) :
    Except ConfigError ImportState :=
  match StoredAxis.coverage? (α := α) s.data with
  | none => .error (.rangeKindMismatch s.importKey (StoredAxis.kind α))
  | some c =>
    let own := (outcomes.filter (·.importKey == s.importKey)).map fun o => (o.range, o.success)
    .ok { s with data := StoredAxis.setCoverage (c.update own now) s.data }

end ImportState

end Backfill
