import Backfill.Provider.Record
import Backfill.Url
import Backfill.Digest.Sha1

/-!
# Endpoints

A provider's address with its limitations. Locks are shared between processes under a key that tells
endpoints apart without giving away credentials in their paths.
-/

namespace Backfill

/-- Where a provider is reached, and its limits. -/
structure Endpoint where
  url : Url
  limitations : Limitations

/-- The space of names that are URLs. -/
def urlNamespace : List UInt8 :=
  [0x6b, 0xa7, 0xb8, 0x11, 0x9d, 0xad, 0x11, 0xd1, 0x80, 0xb4, 0x00, 0xc0, 0x4f, 0xd4, 0x30, 0xc8]

/-- Twelve hexadecimal digits that stand for a URL. -/
def Url.digest (u : Url) : String :=
  let bytes := Digest.sha1 (urlNamespace ++ u.text.toUTF8.toList)
  String.ofList ((bytes.take 6).flatMap fun b => [Json.hexDigit (b.toNat / 16), Json.hexDigit (b.toNat % 16)])

/-- Scheme, host and port with the digest in place of the rest. -/
def Url.lockKey (u : Url) : String :=
  let port := u.port.elim "" fun n => s!":{n}"
  s!"{String.ofList u.scheme}://{String.ofList (u.host.getD [])}{port}/{u.digest}"

namespace Endpoint

def lockKey (e : Endpoint) : String := e.url.lockKey

def fieldNames : List String := ["url", "limitations"]

def ofDocument? {σ : Type} [Scalar σ] (d : Document σ) : Option Endpoint := do
  match ← d.record? fieldNames with
  | [some url, some limitations] =>
    return ⟨← url.text?.bind Url.read?, ← Limitations.ofDocument? limitations⟩
  | _ => none

end Endpoint

end Backfill
