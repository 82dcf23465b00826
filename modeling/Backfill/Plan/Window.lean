import Backfill.Query
import Backfill.Settings
import Backfill.Log

/-!
# The range to consider

From the tip, the settings and an entity's import state follow the range that a pass considers for it
and what is already covered. The newest window stays away from the tip and spans at most one query and
about one day.
-/

namespace Backfill.Plan

/-- What all entities of a pass share. -/
structure PassContext where
  behaviour : Behaviour
  latest : UInt64
  /-- The most blocks of one query. -/
  maxBlocks : Nat
  msPerBlock : Nat

def msPerDay : Nat := 86400000

/-- The newest block far enough from the tip. -/
def PassContext.settled (ctx : PassContext) : Nat := ctx.latest.toNat - ctx.behaviour.wait.toNat

/-- The blocks of the newest window: those of one query, of one day, and since the last import. -/
def windowLength (ctx : PassContext) (lastImported : Option UInt64) : Nat :=
  let length := min ctx.maxBlocks (msPerDay / max 1 ctx.msPerBlock)
  lastImported.elim length fun last => min length (ctx.latest.toNat - last.toNat)

/-- The newest blocks worth asking for. -/
def recentWindow (ctx : PassContext) (lastImported : Option UInt64) : Range UInt64 :=
  ⟨clampWord (ctx.latest.toNat - windowLength ctx lastImported - ctx.behaviour.wait.toNat),
    clampWord ctx.settled⟩

/-- Where a historical pass ends: at the newest settled block, or just before the window that recent
passes take care of. -/
def historicalEnd (ctx : PassContext) (window : Range UInt64) (live : Bool) : UInt64 :=
  if ctx.behaviour.skip.appliesTo live then clampWord (min ctx.settled (window.first.toNat - 1))
  else clampWord ctx.settled

/-- The range before any repair; it may be inverted. -/
def rawRange (ctx : PassContext) (lastImported : Option UInt64) (entity : Entity)
    (state : Option ImportState) : Except ConfigError (Range UInt64) :=
  let window := recentWindow ctx lastImported
  match ctx.behaviour.mode, state with
  | .historical, some s =>
    match s.data.product? with
    | some data => .ok ⟨data.createdAtBlock, historicalEnd ctx window entity.live⟩
    | none => .error (.rangeKindMismatch entity.importKey "block")
  | _, _ => .ok window

/-- An inverted range is an error in strict mode and shrinks to its last block otherwise, so that the
pass still refreshes the state. -/
def repaired (strict : Bool) (importKey : String) (r : Range UInt64) : Except ConfigError (Range UInt64) :=
  if r.valid then .ok r
  else if strict then
    .error (.inconsistentRange importKey s!"full range {r.render fun n => toString n.toNat} is inverted")
  else .ok (Range.point r.last)

/-- What an entity's state says is covered and what failed; failures count in historical mode only. -/
def known (b : Behaviour) (state : Option ImportState) : List (Range UInt64) × List (Range UInt64) :=
  match state.bind fun s => StoredAxis.coverage? (α := UInt64) s.data with
  | some c =>
    if b.ignoreState then ([], [])
    else (c.covered, if b.mode = .historical then c.toRetry else [])
  | none => ([], [])

/-- Range and retries inside forced bounds. Bounds that share nothing with the range leave an inverted
one, for which nothing is planned. -/
def forced (bounds : Option (Range UInt64)) (input : PlanInput Entity UInt64) : PlanInput Entity UInt64 :=
  match bounds with
  | none => input
  | some b =>
    let full := ⟨Axis.later input.full.first b.first, Axis.earlier input.full.last b.last⟩
    { input with full, toRetry := Range.clip input.toRetry full }

/-- The planner's input for an entity. -/
def planInput (ctx : PassContext) (lastImported : Option UInt64) (entity : Entity)
    (state : Option ImportState) : Except ConfigError (PlanInput Entity UInt64) := do
  let raw ← rawRange ctx lastImported entity state
  let full ← repaired ctx.behaviour.strict entity.importKey raw
  let (covered, toRetry) := known ctx.behaviour state
  return forced ctx.behaviour.force ⟨entity, full, covered, toRetry⟩

/-- The log entries about an entity's range: one when it is inverted. -/
def rangeEntries (ctx : PassContext) (lastImported : Option UInt64) (entity : Entity)
    (state : Option ImportState) : List Log.Entry :=
  match rawRange ctx lastImported entity state with
  | .error _ => []
  | .ok r =>
    if r.valid then []
    else
      let (level, message) := if ctx.behaviour.strict then (.error, "Inconsistent full range")
        else (.warn, "Inverted full range, using a point range instead")
      [{ level, message, target := "vault_indexer::sync::normalizer"
         fields := [("import_key", .worded entity.importKey),
           ("range", .worded (r.render fun n => toString n.toNat))] }]

end Backfill.Plan
