import Backfill.Keyed
import Backfill.Document.JsonReader
import Backfill.Document.JsonWriter
import Backfill.Log

/-!
# Cache

Texts that are kept for a while. Expiry follows the timer, so time that does not pass costs nothing. A
cached number is stored as the text of a JSON document; what does not read as one counts as missing.
-/

namespace Backfill

/-- A text and the reading of the timer at which it is gone. -/
structure Cached where
  text : String
  expires : Nat
  deriving DecidableEq, Repr

abbrev Cache := Keyed Cached

namespace Cache

def target : String := "vault_indexer::core::client::cache"

/-- The text under a key that has not expired. -/
def text? (c : Cache) (timer : Nat) (key : String) : Option String :=
  ((c.get? key).filter fun e => decide (timer < e.expires)).map (·.text)

/-- Keeps a text for so many nanoseconds. -/
def keep (c : Cache) (timer : Nat) (key text : String) (ttl : Nat) : Cache := c.set key ⟨text, timer + ttl⟩

/-- Keeps a number. -/
def keepWord (c : Cache) (timer : Nat) (key : String) (n : UInt64) (ttl : Nat) : Cache :=
  c.keep timer key (Json.ofWord n).compact ttl

/-- The number under a key. -/
def word? (c : Cache) (timer : Nat) (key : String) : Option UInt64 :=
  (c.text? timer key).bind fun text => (Json.read? text).bind (·.word?)

/-- The log entries of looking for a number. -/
def wordEntries (c : Cache) (timer : Nat) (key : String) : List Log.Entry :=
  match c.text? timer key with
  | none => []
  | some _ =>
    if (c.word? timer key).isSome then
      [{ level := .trace, target, message := "Cache hit", fields := [("key", .text key)] }]
    else
      [{ level := .warn, target, message := "Ignoring undecodable cache entry"
         fields := [("key", .text key), ("error", .worded "")] }]

end Cache

end Backfill
