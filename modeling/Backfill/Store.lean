import Backfill.Keyed
import Backfill.ImportState

/-!
# The store of import states

A merge either replaces one state or, when it is refused, leaves the store as it was.
-/

namespace Backfill

abbrev Store := Keyed ImportState

namespace Store

/-- The states under some keys, in the order of the keys; missing ones are left out. -/
def getMany (s : Store) (keys : List String) : List ImportState := keys.filterMap (s.get? ·)

/-- Puts a state under its own key. -/
def put (s : Store) (state : ImportState) : Store := s.set state.importKey state

/-- The state stored under the key of this one, which is stored if there is none. -/
def createIfMissing (s : Store) (state : ImportState) : ImportState × Store :=
  match s.get? state.importKey with
  | some known => (known, s)
  | none => (state, s.put state)

variable {α : Type} [StoredAxis α]

/-- Merges outcomes into the state under a key. -/
def merge (s : Store) (key : String) (outcomes : List (Outcome α)) (now : Timestamp) :
    Except DatabaseError (ImportState × Store) :=
  match s.get? key with
  | none => .error (.notFound key)
  | some state =>
    match state.apply outcomes now with
    | .error e => .error (.mergeRejected e)
    | .ok merged => .ok (merged, s.set key merged)

/-- The store after a merge, which a refused one leaves as it is. -/
def afterMerge (s : Store) : Except DatabaseError (ImportState × Store) → Store
  | .ok (_, s') => s'
  | .error _ => s

end Store

end Backfill
