import Backfill.Document.JsonReader
import Backfill.Remote.Message
import Backfill.Text.Utf8

/-!
# Replies

What comes back when a document is sent to a provider: an answer with a status and a body, silence, or a
failure of the connection. Only a successful status lets the body count as a document.
-/

namespace Backfill.Remote

/-- What comes back. -/
inductive Reply where
  | answer (status : Nat) (body : List UInt8)
  | timeout
  /-- The connection failed; the text is the transport's. -/
  | broken (text : String)

/-- The usual phrase for a status. -/
def phraseOf : Nat → String
  | 100 => "Continue" | 101 => "Switching Protocols" | 102 => "Processing" | 103 => "Early Hints"
  | 200 => "OK" | 201 => "Created" | 202 => "Accepted" | 203 => "Non Authoritative Information"
  | 204 => "No Content" | 205 => "Reset Content" | 206 => "Partial Content" | 207 => "Multi-Status"
  | 208 => "Already Reported" | 226 => "IM Used"
  | 300 => "Multiple Choices" | 301 => "Moved Permanently" | 302 => "Found" | 303 => "See Other"
  | 304 => "Not Modified" | 305 => "Use Proxy" | 307 => "Temporary Redirect" | 308 => "Permanent Redirect"
  | 400 => "Bad Request" | 401 => "Unauthorized" | 402 => "Payment Required" | 403 => "Forbidden"
  | 404 => "Not Found" | 405 => "Method Not Allowed" | 406 => "Not Acceptable"
  | 407 => "Proxy Authentication Required" | 408 => "Request Timeout" | 409 => "Conflict" | 410 => "Gone"
  | 411 => "Length Required" | 412 => "Precondition Failed" | 413 => "Payload Too Large"
  | 414 => "URI Too Long" | 415 => "Unsupported Media Type" | 416 => "Range Not Satisfiable"
  | 417 => "Expectation Failed" | 418 => "I'm a teapot" | 421 => "Misdirected Request"
  | 422 => "Unprocessable Entity" | 423 => "Locked" | 424 => "Failed Dependency" | 425 => "Too Early"
  | 426 => "Upgrade Required" | 428 => "Precondition Required" | 429 => "Too Many Requests"
  | 431 => "Request Header Fields Too Large" | 451 => "Unavailable For Legal Reasons"
  | 500 => "Internal Server Error" | 501 => "Not Implemented" | 502 => "Bad Gateway"
  | 503 => "Service Unavailable" | 504 => "Gateway Timeout" | 505 => "HTTP Version Not Supported"
  | 506 => "Variant Also Negotiates" | 507 => "Insufficient Storage" | 508 => "Loop Detected"
  | 510 => "Not Extended" | 511 => "Network Authentication Required"
  | _ => "<unknown status code>"

def isSuccess (status : Nat) : Bool := decide (200 ≤ status) && decide (status < 300)

/-- Answers with these statuses have no body, whatever follows their heads. -/
def isBodiless (status : Nat) : Bool := status == 204 || status == 304

/-- The document in a body. -/
def documentOf? (body : List UInt8) : Option Json :=
  (String.fromUTF8? (ByteArray.mk body.toArray)).bind Json.parse?

/-- The text of a body, without a mark of its encoding in front. -/
def textOf (body : List UInt8) : String :=
  Text.lenient (match body with
    | 0xEF :: 0xBB :: 0xBF :: rest => rest
    | body => body)

/-- What is said of a body that holds no document. -/
def undecodableText : String := "error decoding response body"

/-! ## Faults -/

/-- What the transport tells of an exchange that failed. Its words may name the address that was called. -/
structure Fault where
  /-- A body came back, and it holds no document. -/
  undecodable : Bool := false
  timedOut : Bool := false
  /-- There was no connection. -/
  unconnected : Bool := false
  text : String := ""

/-- What an error says of a fault. -/
def Fault.detail (f : Fault) : String :=
  if f.timedOut then "request timed out"
  else if f.unconnected then s!"connection failed: {f.text}"
  else f.text

/-- The error that a fault stands for. -/
def errorOfFault (operation : String) (f : Fault) : RpcError :=
  if f.undecodable then .invalidResponse operation f.text else errorOfMessage operation f.detail

/-! ## Documents -/

/-- The document that came back. -/
def Reply.document (operation : String) : Reply → Except RpcError Json
  | .answer status body =>
    let body := if isBodiless status then [] else body
    if isSuccess status then
      match documentOf? body with
      | some d => .ok d
      | none => .error (errorOfFault operation { undecodable := true, text := undecodableText })
    else .error (errorOfMessage operation s!"HTTP {status} {phraseOf status}: {textOf body}")
  | .timeout => .error (errorOfFault operation { timedOut := true })
  | .broken text => .error (errorOfFault operation { unconnected := true, text })

end Backfill.Remote
