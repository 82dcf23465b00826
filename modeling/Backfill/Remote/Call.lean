import Backfill.Document.Codec
import Backfill.Remote.Reply
import Backfill.Remote.Quantity
import Backfill.Log
import Std.Data.TreeMap

/-!
# Remote calls

A call names a method and has parameters. It is sent with a number, alone or in a batch with others;
the answers to a batch are matched by number, whatever their order.
-/

namespace Backfill.Remote

/-- A call of a method. -/
structure Call where
  method : String
  params : Json

/-- What is sent at once. -/
inductive Message where
  | one (call : Call)
  | many (calls : List Call)

/-- What a provider reports instead of a result. -/
structure Complaint where
  code : Int
  message : String

/-- The answer to a call. -/
structure Response where
  id : Json
  result : Option Json
  complaint : Option Complaint

/-! ## Sending -/

/-- The document of a call with a number. The numbers go on without a bound, but in the document they are words, as
counters are that start over after 2⁶⁴ calls; nobody makes so many. -/
def Call.document (id : Nat) (c : Call) : Json :=
  .fields [("jsonrpc", encode "2.0"), ("id", encode id), ("method", encode c.method), ("params", c.params)]

namespace Message

/-- How many numbers the message takes. -/
def size : Message → Nat
  | one _ => 1
  | many calls => calls.length

/-- The document that is sent when the first call gets a number; a batch without calls is not sent. -/
def document? (first : Nat) : Message → Option Json
  | one c => some (c.document first)
  | many [] => none
  | many calls => some (.items (calls.zipIdx.map fun (c, i) => c.document (first + i)))

/-- The operation that errors of the whole message name. -/
def operation : Message → String
  | one c => c.method
  | many _ => "batch"

/-- The log entries of sending. -/
def entries (first : Nat) (m : Message) : List Log.Entry :=
  let entry (message : String) (fields : List (String × Log.Value)) : Log.Entry :=
    { level := .trace, target := "vault_indexer::core::client::rpc", message, fields }
  match m with
  | one c => [entry "Sending JSON-RPC request" [("method", .text c.method), ("id", .count first)]]
  | many [] => []
  | many calls => [entry "Sending JSON-RPC batch" [("size", .count calls.length)]]

end Message

/-! ## Receiving -/

instance : Decode Complaint := ⟨fun d => do
  match ← d.record? ["code", "message"] with
  | [some code, some message] => return ⟨← decode? code, ← decode? message⟩
  | _ => none⟩

instance : Decode Response := ⟨fun d => do
  match ← d.record? ["id", "result", "error"] with
  | [id, result, complaint] =>
    return ⟨id.getD Json.null, result.filter (!·.isNull), ← (complaint.filter (!·.isNull)).mapM decode?⟩
  | _ => none⟩

/-- The result of a call: what the provider reports instead counts first. -/
def Response.toResult (method : String) (r : Response) : Except RpcError Json :=
  match r.complaint, r.result with
  | some c, _ => .error (errorOfMessage method s!"{c.message} ({c.code})")
  | none, some result => .ok result
  | none, none => .error (.invalidResponse method "response has neither result nor error")

/-- A value in a document; what is wrong with it is not said here. -/
def decodeFor {β : Type} [Decode β] (operation : String) (d : Json) : Except RpcError β :=
  (decode? d).elim (.error (.invalidResponse operation "")) .ok

/-- The result of a call that was sent alone. -/
def readOne {β : Type} [Decode β] (c : Call) (reply : Reply) : Except RpcError β := do
  let response : Response ← decodeFor c.method (← reply.document c.method)
  decodeFor c.method (← response.toResult c.method)

/-- The number of the call that a response answers, if it names one. -/
def Response.number? (r : Response) : Option Nat := r.id.word?.map (·.toNat)

/-- Responses under their numbers; of several with one number the last counts. -/
def numbered (responses : List Response) : Std.TreeMap Nat Response :=
  .ofList (responses.filterMap fun r => r.number?.map (·, r))

/-- The results of calls numbered from `id` on; each takes its response away. -/
def collect (id : Nat) (responses : Std.TreeMap Nat Response) : List Call → List (Except RpcError Json)
  | [] => []
  | c :: calls =>
    (match responses[id]? with
    | some r => r.toResult c.method
    | none => .error (.invalidResponse c.method "missing from batch response")) ::
      collect (id + 1) (responses.erase id) calls

/-- The results of the calls of a batch, in the order of the calls. -/
def readMany (first : Nat) (calls : List Call) (reply : Reply) :
    Except RpcError (List (Except RpcError Json)) := do
  let responses : List Response ← decodeFor "batch" (← reply.document "batch")
  return collect first (numbered responses) calls

/-! ## Blocks and logs -/

/-- The call for the newest block. -/
def tipCall : Call := ⟨"eth_blockNumber", .items []⟩

def readTip (reply : Reply) : Except RpcError UInt64 := do
  readQuantity tipCall.method (← readOne tipCall reply)

/-- The call for the logs of some addresses in a range of blocks. -/
def logsCall (addresses : List String) (range : Range UInt64) : Call := ⟨"eth_getLogs", logsParams addresses range⟩

/-- The log entry of logs that came back. -/
def logsEntry (logs : Json) : Log.Entry where
  level := .trace
  target := "vault_indexer::connector::logs"
  message := "Logs fetched"
  fields := [("logs", .count (match logs with
    | .items xs => xs.length
    | _ => 0))]

/-- The message for some calls: a single one travels alone. -/
def messageOf : List Call → Message
  | [c] => .one c
  | calls => .many calls

/-- Whether the logs of each query came back, and the log entries. -/
def readLogs (first : Nat) (calls : List Call) (reply : Reply) :
    Except RpcError (List (Except RpcError Unit)) × List Log.Entry :=
  let results : Except RpcError (List (Except RpcError Json)) := match calls with
    | [] => .ok []
    | [c] => (readOne c reply).map fun logs => [.ok logs]
    | _ => readMany first calls reply
  (results.map fun rs => rs.map fun r => r.map fun _ => (),
    match results with
    | .ok rs => rs.filterMap fun r => r.toOption.map logsEntry
    | .error _ => [])

end Backfill.Remote
