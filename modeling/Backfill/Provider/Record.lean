import Backfill.Provider
import Backfill.Document.JsonWriter

/-!
# Limitations as documents

Reading takes any format's documents; writing gives JSON with every field present.
-/

namespace Backfill

variable {σ : Type} [Scalar σ]

/-- The name of a missing delay. -/
def MinDelay.noLimitText : String := "no-limit"

/-- A number of milliseconds, or the name of a missing delay, which may also be the only field of a
record with nothing in it. -/
def MinDelay.ofDocument? (d : Document σ) : Option MinDelay :=
  match d with
  | .scalar s =>
    if Scalar.plainText? s = some noLimitText then some .noLimit else (Scalar.word? s).map .millis
  | .fields [(name, d)] => if name = noLimitText ∧ d.isNull then some .noLimit else none
  | _ => none

/-- Limits by kind; of a kind given twice the last limit counts. -/
def Limitations.methodsOfDocument? (d : Document σ) : Option (List (CallKind × Option UInt64)) := do
  let read ← (← d.fields?).mapM fun (name, d) => do
    return (← CallKind.read? name, ← d.nullable? Document.word?)
  return CallKind.all.filterMap fun kind => read.reverse.find? (·.1 == kind)

def Limitations.fieldNames : List String :=
  ["is_archive_node", "min_delay_between_calls", "max_get_logs_block_span",
    "max_get_logs_address_batch_size", "methods", "weight"]

/-- Everything but the delay may be missing. -/
def Limitations.ofDocument? (d : Document σ) : Option Limitations := do
  match ← d.record? fieldNames with
  | [archive, minDelay, blockSpan, addressBatch, methods, weight] =>
    let word? (d : Option (Document σ)) : Option (Option UInt64) :=
      d.elim (some none) (Document.nullable? Document.word?)
    return {
      archive := ← archive.elim (some false) Document.bool?
      minDelay := ← MinDelay.ofDocument? (← minDelay)
      blockSpan := ← word? blockSpan
      addressBatch := ← word? addressBatch
      methods := ← methods.elim (some []) methodsOfDocument?
      weight := ← word? weight }
  | _ => none

def MinDelay.toJson : MinDelay → Json
  | .noLimit => Json.ofText noLimitText
  | .millis ms => Json.ofWord ms

def Limitations.methodsToJson (l : Limitations) : Json :=
  .fields (l.methods.map fun (kind, limit) => (kind.text, Json.ofOption Json.ofWord limit))

def Limitations.toJson (l : Limitations) : Json :=
  .fields (fieldNames.zip
    [Json.ofBool l.archive, l.minDelay.toJson, Json.ofOption Json.ofWord l.blockSpan,
      Json.ofOption Json.ofWord l.addressBatch, l.methodsToJson, Json.ofOption Json.ofWord l.weight])

end Backfill
