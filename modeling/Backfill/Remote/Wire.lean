import Backfill.Remote.Reply
import Backfill.Document.JsonWriter
import Backfill.Url

/-!
# Messages on the wire

A document is posted to an address over a connection of its own, which the provider closes when it has
answered. The answer is a head of lines and a body; the body ends with the connection, after a length
that the head gives, or comes in chunks.
-/

namespace Backfill.Remote

/-! ## Sending -/

/-- The host and port of an address, as the head of a message names them. -/
def authorityOf (u : Url) : String := String.ofList (u.host.getD []) ++ u.port.elim "" fun n => s!":{n}"

/-- The path and query of an address. -/
def targetOf (u : Url) : String :=
  String.ofList (Url.pathText true u.path ++ u.query.elim [] ('?' :: ·))

/-- The message that posts a document. -/
def postMessage (u : Url) (body : Json) : ByteArray :=
  let body := body.compact.toUTF8
  let head := [s!"POST {targetOf u} HTTP/1.1", s!"Host: {authorityOf u}", "Content-Type: application/json",
    s!"Content-Length: {body.size}", "Accept: */*", "Connection: close", "", ""]
  ("\r\n".intercalate head).toUTF8 ++ body

/-! ## Receiving -/

/-- A line without its end, and the bytes after it. -/
def splitLine? : List UInt8 → Option (List UInt8 × List UInt8)
  | [] => none
  | 13 :: 10 :: rest => some ([], rest)
  | 10 :: rest => some ([], rest)
  | b :: rest => (splitLine? rest).map fun (line, after) => (b :: line, after)

theorem splitLine?_length_lt {bytes line after : List UInt8} (h : splitLine? bytes = some (line, after)) :
    after.length < bytes.length := by
  induction bytes using splitLine?.induct generalizing line after with
  | case1 => simp [splitLine?] at h
  | case2 rest =>
    simp only [splitLine?, Option.some.injEq, Prod.mk.injEq] at h
    obtain ⟨-, rfl⟩ := h
    simp only [List.length_cons]; omega
  | case3 rest =>
    simp only [splitLine?, Option.some.injEq, Prod.mk.injEq] at h
    obtain ⟨-, rfl⟩ := h
    simp
  | case4 b rest h₁ h₂ ih =>
    rw [splitLine?.eq_4 _ _ h₁ h₂] at h
    obtain ⟨⟨l, a⟩, hl, he⟩ := Option.map_eq_some_iff.1 h
    simp only [Prod.mk.injEq] at he
    obtain ⟨-, rfl⟩ := he
    have := ih hl
    simp only [List.length_cons]; omega

/-- The lines up to the first empty one, and the bytes after it. -/
def splitHead? (bytes : List UInt8) : Option (List String × List UInt8) :=
  match h : splitLine? bytes with
  | none => none
  | some ([], after) => some ([], after)
  | some (line, after) =>
    have := splitLine?_length_lt h
    (splitHead? after).map fun (lines, rest) => (Text.lenient line :: lines, rest)
termination_by bytes.length

/-- A field of the head, by its name in small letters. -/
def headField? (name : String) (lines : List String) : Option String :=
  lines.findSome? fun line =>
    let cs := line.toList
    if (cs.takeWhile (· ≠ ':')).map Char.toLower == name.toList then
      some (String.ofList (Text.trim ((cs.dropWhile (· ≠ ':')).drop 1)))
    else none

/-- A number in hexadecimal digits; what follows them does not count. -/
def chunkSize (line : List UInt8) : Nat :=
  ((line.map fun b => Char.ofNat b.toNat).takeWhile fun c => (Text.hexDigit? c).isSome).foldl
    (fun n c => n * 16 + (Text.hexDigit? c).getD 0) 0

/-- A body that comes in chunks; the last one is empty. Without it the body is cut short. -/
def joinChunks? (bytes : List UInt8) : Option (List UInt8) :=
  match h : splitLine? bytes with
  | none => none
  | some (line, after) =>
    have := splitLine?_length_lt h
    let size := chunkSize line
    if size = 0 then some []
    else if after.length < size then none
    else (joinChunks? ((after.drop size).dropWhile fun b => b == 13 || b == 10)).map (after.take size ++ ·)
termination_by bytes.length
decreasing_by
  have : ∀ (p : UInt8 → Bool) (l : List UInt8), (l.dropWhile p).length ≤ l.length := fun p l =>
    (List.dropWhile_suffix p).length_le
  have := this (fun b => b == 13 || b == 10) (after.drop (chunkSize line))
  simp only [List.length_drop] at this ⊢
  omega

/-- The status in the first line of a head. -/
def statusOf? (line : String) : Option Nat :=
  match line.splitOn " " with
  | version :: status :: _ => if version.startsWith "HTTP/" then status.toNat? else none
  | _ => none

/-- What is said of a message that was not answered: it names the address. -/
def unansweredText (u : Url) : String := s!"error sending request for url ({u.text})"

/-- The reply in all that came over a connection to an address. -/
def replyOf (u : Url) (bytes : List UInt8) : Reply :=
  match splitHead? bytes with
  | some (first :: fields, rest) =>
    match statusOf? first with
    | none => .broken (unansweredText u)
    | some status =>
      if (headField? "transfer-encoding" fields).isSome then
        (joinChunks? rest).elim (.broken (unansweredText u)) (.answer status)
      else
        match (headField? "content-length" fields).bind String.toNat? with
        | none => .answer status rest
        | some n => if rest.length < n then .broken (unansweredText u) else .answer status (rest.take n)
  | _ => .broken (unansweredText u)

end Backfill.Remote
