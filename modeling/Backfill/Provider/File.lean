import Backfill.Provider.Endpoint
import Backfill.Document.YamlReader
import Backfill.Error

/-!
# Providers files

A providers file names one chain, how fast its blocks come, and the endpoints that serve it.
-/

namespace Backfill

/-- What a providers file holds. -/
structure ProvidersFile where
  chain : String
  msPerBlock : Nat
  /-- How long a tip may be served from the cache. -/
  cacheTtlMs : Nat
  endpoints : List Endpoint

namespace ProvidersFile

def fieldNames : List String := ["chain", "ms_per_block_estimate", "latest_block_cache_ttl_ms", "providers"]

def ofDocument? (d : Yaml) : Option ProvidersFile := do
  match ← d.record? fieldNames with
  | [some chain, some msPerBlock, ttl, some endpoints] =>
    return {
      chain := ← chain.text?
      msPerBlock := (← msPerBlock.word?).toNat
      cacheTtlMs := (← ttl.elim (some 10000) Document.word?).toNat
      endpoints := ← endpoints.list? Endpoint.ofDocument? }
  | _ => none

/-- Reads and checks a providers file. -/
def read? (content : String) : Except ConfigError ProvidersFile :=
  match (Yaml.read? content).bind ofDocument? with
  | none => .error (.invalidProvidersFile "")
  | some file =>
    if file.endpoints.isEmpty then
      .error (.invalidProvidersFile s!"no provider configured for chain {file.chain}")
    else if file.msPerBlock = 0 then .error (.invalidProvidersFile "ms_per_block_estimate must be positive")
    else .ok file

def settings (file : ProvidersFile) : ChainSettings := ⟨file.chain, file.msPerBlock, ofMillis file.cacheTtlMs⟩

end ProvidersFile

end Backfill
