import Backfill.Error
import Backfill.Text.Blank

/-!
# Messages of providers

A provider says in its own words why a call failed. Some wordings tell that the node no longer has the
state that the call needs, so that another attempt at the same node is of no use.
-/

namespace Backfill.Remote

/-- Wordings for state that a node has dropped. -/
def prunedWordings : List String :=
  ["missing trie node", "header not found", "archive", "historical state", "state is not available", "pruned"]

/-- Whether a message has one of the wordings, in capitals or not. -/
def tellsPruned (message : String) : Bool :=
  let lowered := message.toList.map Char.toLower
  prunedWordings.any fun w => Text.occurs w.toList lowered

/-- The error that a provider's message stands for. -/
def errorOfMessage (operation message : String) : RpcError :=
  if tellsPruned message then .archiveNodeNeeded operation message else .transient operation message

end Backfill.Remote
