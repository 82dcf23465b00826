import Backfill.Text.Blank
import Backfill.Word

/-!
# Server addresses

Whether the address of a storage server can be read: its scheme, credentials, hosts, database and
options. Nothing is looked up.
-/

namespace Backfill.ServerAddress

open Text

/-- The text before and after the first such character. -/
def cut (c : Char) (cs : List Char) : List Char × Option (List Char) :=
  let front := cs.takeWhile (· ≠ c)
  (front, if front.length < cs.length then some (cs.drop (front.length + 1)) else none)

/-- The text before and after the last such character. -/
def cutLast (c : Char) (cs : List Char) : Option (List Char × List Char) :=
  if cs.contains c then
    let back := (cs.reverse.takeWhile (· ≠ c)).reverse
    some (cs.take (cs.length - back.length - 1), back)
  else none

def pieces (c : Char) (cs : List Char) : List (List Char) :=
  ((String.ofList cs).splitOn (String.singleton c)).map String.toList

/-- A number, perhaps after a plus sign. -/
def number? (cs : List Char) : Option Nat :=
  let digits := match cs with
    | '+' :: rest => rest
    | cs => cs
  if digits.isEmpty then none else digits.foldlM (fun n c => (digit? c).map (n * 10 + ·)) 0

/-- The text with its escapes replaced; a percent sign that starts none stands for itself. -/
def unescaped : List Char → List Char
  | [] => []
  | '%' :: a :: b :: rest =>
    match hexDigit? a, hexDigit? b with
    | some m, some n => Char.ofNat (16 * m + n) :: unescaped rest
    | _, _ => '%' :: unescaped (a :: b :: rest)
  | c :: rest => c :: unescaped rest

/-- Every percent sign starts an escape. -/
def escapesReadable : List Char → Bool
  | [] => true
  | '%' :: a :: b :: rest => (hexDigit? a).isSome && (hexDigit? b).isSome && escapesReadable rest
  | '%' :: _ => false
  | _ :: rest => escapesReadable rest

/-- A user name or password. -/
def secretReadable (cs : List Char) : Bool :=
  !(cs.any [':', '/', '?', '#', '[', ']', '@'].contains) && escapesReadable cs

def credentialsReadable (cs : List Char) : Bool :=
  let (user, password) := cut ':' cs
  !user.isEmpty && secretReadable user && password.all secretReadable

/-- A host with an optional port. -/
def hostReadable (cs : List Char) : Bool :=
  match pieces ':' cs with
  | [host] => !host.isEmpty
  | [host, port] => !host.isEmpty && (number? port).any fun n => 0 < n && n < 65536
  | _ => false

def databaseReadable (cs : List Char) : Bool :=
  escapesReadable cs && !((unescaped cs).any ['/', '\\', ' ', '"', '$'].contains)

def isNumber (cs : List Char) : Bool := (number? cs).any (· ≤ maxWord)

def isFlag (cs : List Char) : Bool := ["true", "false"].contains (String.ofList cs)

/-- The options and what their values must be. -/
def options : List (String × (List Char → Bool)) :=
  ["connecttimeoutms", "heartbeatfrequencyms", "localthresholdms", "maxconnecting", "maxidletimems",
    "maxpoolsize", "minpoolsize", "maxstalenessseconds", "serverselectiontimeoutms", "sockettimeoutms",
    "waitqueuetimeoutms", "wtimeoutms", "zlibcompressionlevel"].map (·, isNumber) ++
  ["directconnection", "journal", "loadbalanced", "retryreads", "retrywrites", "ssl", "tls", "tlsinsecure",
    "tlsallowinvalidcertificates"].map (·, isFlag) ++
  ["appname", "authmechanism", "authmechanismproperties", "authsource", "compressors", "readconcernlevel",
    "readpreferencetags", "replicaset", "tlscafile", "tlscertificatekeyfile", "uuidrepresentation",
    "w"].map (·, fun _ => true) ++
  [("readpreference", fun cs =>
    ["primary", "primarypreferred", "secondary", "secondarypreferred", "nearest"].contains
      (String.ofList (cs.map Char.toLower)))]

/-- The option that may be given several times. -/
def repeatable : String := "readpreferencetags"

/-- Known options with values of their kind, each written once. -/
def optionsReadable (cs : List Char) : Bool :=
  let pairs := (pieces '&' cs).map (cut '=')
  let lowered (name : List Char) : String := String.ofList (name.map Char.toLower)
  pairs.all (fun (name, value) =>
    value.any fun v => (options.find? (·.1 == lowered name)).any fun (_, holds) => holds (unescaped v)) &&
    decide ((pairs.map (·.1)).filter (lowered · != repeatable)).Nodup

/-- Whether the address of a server can be read. -/
def readable (address : String) : Bool :=
  match strip? "mongodb://".toList address.toList with
  | none => false
  | some cs =>
    let (authority, rest) := cut '/' cs
    let (credentials, hosts) := match cutLast '@' authority with
      | some (credentials, hosts) => (some credentials, hosts)
      | none => (none, authority)
    let (database, given) := cut '?' (rest.getD [])
    credentials.all credentialsReadable && (rest.isSome || !authority.contains '?') &&
      (pieces ',' hosts).all hostReadable && databaseReadable database &&
      given.all fun o => o.isEmpty || optionsReadable o

end Backfill.ServerAddress
