import Backfill.Url.Host

/-!
# URLs

Reading a URL brings it into its normal form: scheme and domain in lower case, the default port left
out, dot segments resolved, forbidden characters escaped.
-/

namespace Backfill

/-- The path of a URL. -/
inductive UrlPath where
  /-- A scheme's own text, as after `mailto:`. -/
  | bare (text : List Char)
  | segments (parts : List (List Char))

/-- A URL in normal form; all parts are escaped. -/
structure Url where
  scheme : List Char
  /-- User name and password, with the sign that ends them. -/
  user : List Char
  host : Option (List Char)
  /-- The port, unless it is the scheme's own. -/
  port : Option Nat
  path : UrlPath
  query : Option (List Char)
  fragment : Option (List Char)

namespace Url

/-! ## Schemes -/

/-- The port of a web scheme; none for files. -/
def defaultPorts : List (String × Option Nat) :=
  [("http", some 80), ("https", some 443), ("ws", some 80), ("wss", some 443), ("ftp", some 21), ("file", none)]

def isSpecial (scheme : List Char) : Bool := defaultPorts.any (·.1 == String.ofList scheme)

def defaultPort? (scheme : List Char) : Option Nat :=
  (defaultPorts.find? (·.1 == String.ofList scheme)).bind (·.2)

def isFile (scheme : List Char) : Bool := String.ofList scheme == "file"

/-- The scheme in lower case and what follows its colon. -/
def scheme? (cs : List Char) : Option (List Char × List Char) :=
  let scheme := cs.takeWhile fun c => c.isAlphanum || c == '+' || c == '-' || c == '.'
  match cs.drop scheme.length with
  | ':' :: rest => if scheme.head?.any Char.isAlpha then some (scheme.map Char.toLower, rest) else none
  | _ => none

/-! ## Paths -/

def isSlash (special : Bool) (c : Char) : Bool := c == '/' || (special && c == '\\')

/-- Where the path ends. -/
def endsPath (c : Char) : Bool := c == '?' || c == '#'

def isSingleDot (segment : List Char) : Bool :=
  [".", "%2e"].contains (String.ofList (segment.map Char.toLower))

def isDoubleDot (segment : List Char) : Bool :=
  ["..", ".%2e", "%2e.", "%2e%2e"].contains (String.ofList (segment.map Char.toLower))

/-- A letter and a colon or a bar, the name of a drive. -/
def isDrive : List Char → Bool
  | [a, b] => a.isAlpha && (b == ':' || b == '|')
  | _ => false

/-- The raw segments of a path: the pieces between slashes. -/
def rawSegments (special : Bool) : List Char → List (List Char)
  | [] => [[]]
  | c :: rest =>
    if isSlash special c then [] :: rawSegments special rest
    else
      match rawSegments special rest with
      | segment :: more => (c :: segment) :: more
      | [] => [[c]]

/-- Resolves dots: a double dot takes the segment before it away, but not a drive. -/
def resolve (file : Bool) (done : List (List Char)) : List (List Char) → List (List Char)
  | [] => done.reverse
  | segment :: rest =>
    let escaped := escape notInPath segment
    if isDoubleDot segment then
      let shorter := match done with
        | [drive] => if file && isDrive drive then done else []
        | _ => done.tail
      resolve file (if rest.isEmpty then [] :: shorter else shorter) rest
    else if isSingleDot segment then resolve file (if rest.isEmpty then [] :: done else done) rest
    else if file && done.isEmpty && isDrive segment then
      resolve file ([segment.headD 'c', ':'] :: done) rest
    else resolve file (escaped :: done) rest

/-- The segments after the first slash. A file's path starts with no empty segment. -/
def segments (scheme : List Char) (cs : List Char) : List (List Char) :=
  let parts := resolve (isFile scheme) [] (rawSegments (isSpecial scheme) cs)
  if isFile scheme then
    match parts.dropWhile List.isEmpty with
    | [] => [[]]
    | parts => parts
  else parts

/-! ## Authorities -/

/-- Splits at the last `@` in front of the path. -/
def splitUser (special : Bool) (cs : List Char) : Option (List Char) × List Char :=
  let authority := cs.takeWhile fun c => !(isSlash special c || endsPath c)
  if authority.contains '@' then
    let host := (authority.reverse.takeWhile (· ≠ '@')).reverse
    (some (authority.take (authority.length - host.length - 1)), host ++ cs.drop authority.length)
  else (none, cs)

/-- User name and password escaped, with the sign that ends them; nothing when both are empty. -/
def userText (raw : List Char) : List Char :=
  let name := raw.takeWhile (· ≠ ':')
  let password := (raw.drop name.length).drop 1
  let text := escape notInUser name ++ (if password.isEmpty then [] else ':' :: escape notInUser password)
  if text.isEmpty then [] else text ++ ['@']

/-- The raw host: up to a colon outside brackets, or the path. -/
def rawHost (special : Bool) (inside : Bool) : List Char → List Char
  | [] => []
  | c :: rest =>
    if isSlash special c || endsPath c || (c == ':' && !inside) then []
    else c :: rawHost special (if c == '[' then true else if c == ']' then false else inside) rest

/-- A port after its colon: the number, if there is one, and the rest. -/
def port? (special : Bool) (cs : List Char) : Option (Option Nat × List Char) := do
  let digits := cs.takeWhile Char.isDigit
  let rest := cs.drop digits.length
  if !rest.head?.all fun c => isSlash true c || endsPath c then none
  if digits.isEmpty then return (none, rest)
  let n ← inBase? 10 digits
  if n < 65536 then some (some n, if special then rest else rest) else none

/-- What stands after the double slash: user, host, port and the rest. -/
def authority? (scheme cs : List Char) : Option (List Char × List Char × Option Nat × List Char) := do
  let special := isSpecial scheme
  let (user, cs) := splitUser special cs
  let raw := rawHost special false cs
  let rest := cs.drop raw.length
  let host ← if special then host? raw else opaqueHost? raw
  let user' := user.elim [] userText
  if host.isEmpty ∧ (!user'.isEmpty ∨ rest.head? = some ':' ∨ user.isSome) then none
  match rest with
  | ':' :: rest =>
    let (port, rest) ← port? special rest
    return (user', host, if port = defaultPort? scheme then none else port, rest)
  | rest => return (user', host, none, rest)

/-! ## Reading -/

/-- Query and fragment. -/
def tail (scheme cs : List Char) : Option (List Char) × Option (List Char) :=
  let query := cs.takeWhile (· ≠ '#')
  let fragment := cs.drop query.length
  ((match query with
    | '?' :: q => some (escape (notInQuery (isSpecial scheme)) q)
    | _ => none),
    match fragment with
    | '#' :: f => some (escape notInFragment f)
    | _ => none)

/-- The path after an authority. -/
def pathAfter (scheme cs : List Char) : UrlPath :=
  let special := isSpecial scheme
  let path := cs.takeWhile (!endsPath ·)
  match path with
  | [] => .segments (if special then [[]] else [])
  | c :: rest => .segments (segments scheme (if isSlash special c then rest else path))

/-- The parts of a file's URL after its scheme. -/
def fileParts? (cs : List Char) : Option (Option (List Char) × UrlPath × List Char) := do
  let scheme := "file".toList
  match cs with
  | a :: b :: rest =>
    if isSlash true a && isSlash true b then
      let raw := rest.takeWhile fun c => !(isSlash true c || endsPath c)
      if isDrive raw then return (none, pathAfter scheme rest, rest.dropWhile (!endsPath ·))
      let after := rest.drop raw.length
      let host ← if raw.isEmpty then some [] else host? raw
      return (if host = "localhost".toList then none else some host, pathAfter scheme after,
        after.dropWhile (!endsPath ·))
  | _ => pure ()
  return (none, pathAfter scheme cs, cs.dropWhile (!endsPath ·))

/-- Reads a URL that has a scheme. -/
def read? (s : String) : Option Url := do
  let isEdge (c : Char) : Bool := c.toNat ≤ 32
  let cs := ((s.toList.dropWhile isEdge).reverse.dropWhile isEdge).reverse
  let cs := cs.filter fun c => !(c == '\t' || c == '\n' || c == '\r')
  let (scheme, cs) ← scheme? cs
  if isFile scheme then
    let (host, path, rest) ← fileParts? cs
    let (query, fragment) := tail scheme rest
    return { scheme, user := [], host := host.filter (!·.isEmpty), port := none, path, query, fragment }
  else if isSpecial scheme then
    let (user, host, port, rest) ← authority? scheme (cs.dropWhile (isSlash true))
    let (query, fragment) := tail scheme (rest.dropWhile (!endsPath ·))
    return { scheme, user, host := some host, port, path := pathAfter scheme rest, query, fragment }
  else
    let rest := cs.dropWhile (!endsPath ·)
    match cs with
    | '/' :: '/' :: cs =>
      let (user, host, port, rest) ← authority? scheme cs
      let (query, fragment) := tail scheme (rest.dropWhile (!endsPath ·))
      return { scheme, user, host := some host, port, path := pathAfter scheme rest, query, fragment }
    | '/' :: path =>
      let (query, fragment) := tail scheme rest
      return { scheme, user := [], host := none, port := none
               path := .segments (segments scheme (path.takeWhile (!endsPath ·))), query, fragment }
    | cs =>
      let (query, fragment) := tail scheme rest
      return { scheme, user := [], host := none, port := none
               path := .bare (escape isControl (cs.takeWhile (!endsPath ·))), query, fragment }

/-! ## Writing -/

def pathText (hasHost : Bool) : UrlPath → List Char
  | .bare text => text
  | .segments parts =>
    let text := parts.flatMap ('/' :: ·)
    if !hasHost && decide (1 < parts.length) && parts.head?.any List.isEmpty then '/' :: '.' :: text else text

/-- The normal form. -/
def text (u : Url) : String :=
  let slashes := if u.host.isSome || isFile u.scheme then "//".toList else []
  let port := u.port.elim [] fun n => (s!":{n}").toList
  String.ofList (u.scheme ++ ':' :: slashes ++ u.user ++ u.host.getD [] ++ port ++
    pathText (!slashes.isEmpty) u.path ++
    u.query.elim [] ('?' :: ·) ++ u.fragment.elim [] ('#' :: ·))

end Url

end Backfill
