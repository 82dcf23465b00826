import Backfill.Store
import Backfill.Log

/-!
# The updater

Outcomes arrive one by one and are merged into the store in groups. A group holds outcomes of one key;
it is merged when an outcome of another key arrives, when it is full, some time after its first outcome,
or at the end.
-/

namespace Backfill

/-- When a group is merged at the latest. -/
structure GroupLimits where
  maxSize : Nat
  /-- Nanoseconds after the first outcome. -/
  maxWait : Nat

/-- What the updater is told. -/
inductive UpdaterEvent (α : Type) where
  | outcome (o : Outcome α)
  | deadline
  | closed

/-- The group that is being collected, and when it is due. -/
structure Updater (α : Type) where
  group : List (Outcome α) := []
  due : Option Nat := none

namespace Updater

variable {α : Type}

/-- The groups that are complete: a group without outcomes is none. -/
def complete (group : List (Outcome α)) : List (List (Outcome α)) := if group.isEmpty then [] else [group]

/-- Collects an outcome of the group's own key. -/
def collect (limits : GroupLimits) (timer : Nat) (u : Updater α) (o : Outcome α) :
    Updater α × List (List (Outcome α)) :=
  let group := u.group ++ [o]
  if max 1 limits.maxSize ≤ group.length then ({}, complete group)
  else ({ group, due := if u.group.isEmpty then some (timer + limits.maxWait) else u.due }, [])

/-- The updater after an event, and the groups that are to be merged because of it. -/
def step (limits : GroupLimits) (timer : Nat) (u : Updater α) :
    UpdaterEvent α → Updater α × List (List (Outcome α))
  | .outcome o =>
    if u.group.any (·.importKey != o.importKey) then
      let (next, groups) := collect limits timer {} o
      (next, complete u.group ++ groups)
    else collect limits timer u o
  | .deadline => ({}, complete u.group)
  | .closed => ({}, complete u.group)

/-- Whether the group is due. -/
def isDue (u : Updater α) (timer : Nat) : Bool := u.due.any fun due => decide (due ≤ timer)

end Updater

/-! ## Merges -/

/-- One group and what came of merging it. -/
structure Merge (α : Type) where
  importKey : String
  size : Nat
  result : Except DatabaseError ImportState

namespace Merge

variable {α : Type} [StoredAxis α]

/-- Merges a group into the store. -/
def ofGroup (store : Store) (now : Timestamp) (key : String) (group : List (Outcome α)) : Merge α × Store :=
  let merged := store.merge key group now
  (⟨key, group.length, merged.map (·.1)⟩, store.afterMerge merged)

/-- Merges groups one after another. -/
def ofGroups (store : Store) (now : Timestamp) : List (List (Outcome α)) → List (Merge α) × Store
  | [] => ([], store)
  | [] :: rest => ofGroups store now rest
  | (o :: group) :: rest =>
    let (merge, store) := ofGroup store now o.importKey (o :: group)
    let (merges, store) := ofGroups store now rest
    (merge :: merges, store)

def target : String := "vault_indexer::sync::updater"

/-- A list of ranges as it stands in log entries. -/
def rangesText (ranges : List (Range α)) : String :=
  "[" ++ ", ".intercalate (ranges.map (·.renderBraced StoredAxis.text)) ++ "]"

/-- The log entries of a merge. -/
def entries (m : Merge α) : List Log.Entry :=
  let key := ("import_key", Log.Value.worded m.importKey)
  match m.result with
  | .ok state =>
    { level := .debug, target, message := "Import state updated", fields := [key, ("outcomes", .count m.size)] } ::
      (StoredAxis.coverage? (α := α) state.data).toList.map fun c =>
        { level := .debug, target, message := "Coverage after merge"
          fields := [("covered", .worded (rangesText c.covered)), ("to_retry", .worded (rangesText c.toRetry))] }
  | .error (.mergeRejected e) =>
    [{ level := .error, target, message := "Import state merge rejected", fields := [key, ("error", .worded e.message)] }]
  | .error e =>
    [{ level := .error, target, message := "Failed to update import state", fields := [key, ("error", .worded e.message)] }]

/-- The log entry of an updater that has nothing left to do. -/
def stoppedEntry : Log.Entry := { level := .debug, target, message := "Import state updater stopped" }

end Merge

end Backfill
