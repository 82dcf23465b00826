import Backfill.Document.JsonWriter
import Backfill.Range
import Backfill.Error

/-!
# Quantities

Numbers in remote calls are hexadecimal texts.
-/

namespace Backfill.Remote

open Text

/-- A number as `0x1b4`. -/
def quantity (n : UInt64) : String := "0x" ++ String.ofList (Nat.toDigits 16 n.toNat)

/-- What is wrong with a text that is no quantity. -/
inductive QuantityFault where
  | empty
  | digit
  | tooLarge

def QuantityFault.message : QuantityFault → String
  | empty => "cannot parse integer from empty string"
  | digit => "invalid digit found in string"
  | tooLarge => "number too large to fit in target type"

/-- Hexadecimal digits, the first fault from the left if there is one. -/
def readDigits (n : Nat) : List Char → Except QuantityFault Nat
  | [] => .ok n
  | c :: rest =>
    match hexDigit? c with
    | none => .error .digit
    | some d => if 16 * n + d ≤ maxWord then readDigits (16 * n + d) rest else .error .tooLarge

/-- Digits after at most one plus sign; a sign alone is a bad digit. -/
def readSigned : List Char → Except QuantityFault Nat
  | [] => .error .empty
  | '+' :: rest => if rest.isEmpty then .error .digit else readDigits 0 rest
  | cs => readDigits 0 cs

/-- Reads a quantity, with or without its mark. -/
def readQuantity (operation value : String) : Except RpcError UInt64 :=
  match readSigned ((strip? "0x".toList value.toList).getD value.toList) with
  | .ok n => .ok n.toUInt64
  | .error fault => .error (.invalidResponse operation s!"invalid quantity {value}: {fault.message}")

/-- The parameters of a call for the logs of some addresses in a range of blocks. -/
def logsParams (addresses : List String) (range : Range UInt64) : Json :=
  .items [.fields [("address", Json.ofList Json.ofText addresses),
    ("fromBlock", Json.ofText (quantity range.first)), ("toBlock", Json.ofText (quantity range.last))]]

end Backfill.Remote
