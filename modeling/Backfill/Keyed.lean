/-!
# Values under keys

A dictionary from texts to values. The view is `get?`; each operation says what it does to the view.
-/

namespace Backfill

/-- Values under texts; of two entries with one key the first counts. -/
structure Keyed (β : Type) where
  entries : List (String × β) := []

namespace Keyed

variable {β : Type}

def get? (m : Keyed β) (key : String) : Option β := m.entries.lookup key

def contains (m : Keyed β) (key : String) : Bool := (m.get? key).isSome

def set (m : Keyed β) (key : String) (x : β) : Keyed β := ⟨(key, x) :: m.entries.filter (·.1 != key)⟩

def erase (m : Keyed β) (key : String) : Keyed β := ⟨m.entries.filter (·.1 != key)⟩

/-- Sets the value that follows from the present one. -/
def alter (m : Keyed β) (key : String) (f : Option β → β) : Keyed β := m.set key (f (m.get? key))

def ofList (entries : List (String × β)) : Keyed β := entries.foldl (fun m (k, x) => m.set k x) {}

theorem lookup_filter_ne (entries : List (String × β)) (key other : String) :
    (entries.filter (·.1 != key)).lookup other = if other = key then none else entries.lookup other := by
  induction entries with
  | nil => simp
  | cons e rest ih =>
    obtain ⟨k, x⟩ := e
    by_cases hk : k = key <;> by_cases ho : other = k <;> grind

@[simp] theorem get?_empty (key : String) : ({} : Keyed β).get? key = none := rfl

theorem get?_set (m : Keyed β) (key other : String) (x : β) :
    (m.set key x).get? other = if other = key then some x else m.get? other := by
  by_cases h : other = key
  · simp [get?, set, h]
  · have : (other == key) = false := by simpa using h
    simp [get?, set, List.lookup_cons, this, lookup_filter_ne, h]

@[simp] theorem get?_set_self (m : Keyed β) (key : String) (x : β) : (m.set key x).get? key = some x := by
  simp [get?_set]

theorem get?_erase (m : Keyed β) (key other : String) :
    (m.erase key).get? other = if other = key then none else m.get? other :=
  lookup_filter_ne m.entries key other

end Keyed

end Backfill
