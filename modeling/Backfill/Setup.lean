import Backfill.Provider.Endpoint
import Backfill.Settings

/-!
# Setup

Everything that the workers of one chain need to know.
-/

namespace Backfill

/-- The chain, its providers and the settings of the work. -/
structure Setup where
  chain : ChainSettings
  endpoints : List Endpoint
  behaviour : Behaviour
  shaping : Shaping
  stream : Stream
  retry : Retry
  lock : LockTimings

end Backfill
