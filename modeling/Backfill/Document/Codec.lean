import Backfill.Document.JsonWriter

/-!
# Values as JSON documents

One class for values that can be read from a document, one for values that can be written as one.
Reading refuses with nothing; in a record, a field that is null counts as missing.
-/

namespace Backfill

class Decode (β : Type) where
  decode? : Json → Option β

class Encode (β : Type) where
  encode : β → Json

export Decode (decode?)
export Encode (encode)

variable {β γ : Type}

namespace Json

/-- A field that is there and not null. -/
def present? (d : Json) (name : String) : Option Json := (d.field? name).filter (!·.isNull)

/-- The value of a field that has to be there. -/
def get [Decode β] (d : Json) (name : String) : Option β := do decode? (← d.present? name)

/-- The value of a field that may be missing. -/
def get? [Decode β] (d : Json) (name : String) : Option (Option β) := (d.present? name).mapM decode?

/-- The value of a field, or another one where it is missing. -/
def getD [Decode β] (d : Json) (name : String) (default : β) : Option β :=
  (d.get? name).map (·.getD default)

end Json

/-! ## Basic values -/

instance : Decode Json := ⟨some⟩
instance : Decode UInt64 := ⟨(·.word?)⟩
instance : Decode Nat := ⟨fun d => d.word?.map (·.toNat)⟩
instance : Decode UInt32 := ⟨fun d => (d.word?.filter fun n => n.toNat < Nat.pow 2 32).map (·.toUInt32)⟩
instance : Decode Int := ⟨fun
  | .scalar (.word n) => if n.toNat ≤ maxSigned then some n.toNat else none
  | .scalar (.negative n) => some (-n.toNat)
  | _ => none⟩
instance : Decode String := ⟨(·.text?)⟩
instance : Decode Bool := ⟨(·.bool?)⟩
instance [Decode β] : Decode (List β) := ⟨(·.list? decode?)⟩
instance [Decode β] [Decode γ] : Decode (β × γ) := ⟨fun
  | .items [a, b] => return (← decode? a, ← decode? b)
  | _ => none⟩

instance : Encode Json := ⟨id⟩
instance : Encode UInt64 := ⟨Json.ofWord⟩
instance : Encode Nat := ⟨Json.ofNat⟩
instance : Encode String := ⟨Json.ofText⟩
instance : Encode Bool := ⟨Json.ofBool⟩
instance [Encode β] : Encode (List β) := ⟨Json.ofList encode⟩
instance [Encode β] : Encode (Option β) := ⟨Json.ofOption encode⟩
instance [Encode β] [Encode γ] : Encode (β × γ) := ⟨fun (a, b) => .items [encode a, encode b]⟩

/-- A choice among named values. -/
@[reducible] def Decode.ofName (read? : String → Option β) : Decode β := ⟨fun d => d.text?.bind read?⟩

end Backfill
