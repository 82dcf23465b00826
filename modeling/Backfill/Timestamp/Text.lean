import Backfill.Timestamp
import Backfill.Text.Blank

/-!
# Timestamps as text

Writing gives the calendar date and the time of day in UTC with the fewest of 0, 3, 6 or 9 fraction
digits. Reading is lenient: blanks between the parts, short numbers, signed years and any offset.
-/

namespace Backfill.Timestamp

open Text

/-! ## The calendar -/

/-- Days from 1970-01-01 to a date of the proleptic Gregorian calendar. -/
def daysOf (year : Int) (month day : Nat) : Int :=
  let y := if month ≤ 2 then year - 1 else year
  let era := y / 400
  let yearOfEra := y % 400
  let dayOfYear : Int := (153 * ((month + 9) % 12 : Nat) + 2) / 5 + day - 1
  let dayOfEra := yearOfEra * 365 + yearOfEra / 4 - yearOfEra / 100 + dayOfYear
  era * 146097 + dayOfEra - 719468

/-- The date so many days after 1970-01-01. -/
def dateOf (days : Int) : Int × Nat × Nat :=
  let z := days + 719468
  let era := z / 146097
  let dayOfEra := z % 146097
  let yearOfEra := (dayOfEra - dayOfEra / 1460 + dayOfEra / 36524 - dayOfEra / 146096) / 365
  let dayOfYear := dayOfEra - (365 * yearOfEra + yearOfEra / 4 - yearOfEra / 100)
  let shifted := (5 * dayOfYear + 2) / 153
  let day := (dayOfYear - (153 * shifted + 2) / 5 + 1).toNat
  let month := if shifted < 10 then (shifted + 3).toNat else (shifted - 9).toNat
  (yearOfEra + era * 400 + (if month ≤ 2 then 1 else 0), month, day)

def isLeapYear (year : Int) : Bool := year % 4 == 0 && (year % 100 != 0 || year % 400 == 0)

def daysInMonth (year : Int) (month : Nat) : Nat :=
  if month == 2 then (if isLeapYear year then 29 else 28)
  else if [4, 6, 9, 11].contains month then 30
  else 31

/-! ## Writing -/

/-- Years 0 to 9999 have four digits; any other has a sign and at least four. -/
def yearText (year : Int) : String :=
  if 0 ≤ year ∧ year ≤ 9999 then padded 4 year.toNat
  else (if year < 0 then "-" else "+") ++ padded 4 year.natAbs

/-- The fraction of a second in the fewest of 0, 3, 6 or 9 digits. -/
def fractionText (nanos : Nat) : String :=
  if nanos = 0 then ""
  else if nanos % 1000000 = 0 then "." ++ padded 3 (nanos / 1000000)
  else if nanos % 1000 = 0 then "." ++ padded 6 (nanos / 1000)
  else "." ++ padded 9 nanos

def dateText (t : Timestamp) : String :=
  let (year, month, day) := dateOf (t.seconds / 86400)
  s!"{yearText year}-{padded 2 month}-{padded 2 day}"

/-- The time of day; a leap second is written as second 60. -/
def clockText (t : Timestamp) : String :=
  let s := t.secondOfDay.toNat
  let leap := t.nanos / giga
  let fraction := fractionText (t.nanos % giga)
  s!"{padded 2 (s / 3600)}:{padded 2 (s / 60 % 60)}:{padded 2 (s % 60 + leap)}{fraction}"

/-- The form of documents, such as `2024-01-01T00:00:00Z`. -/
def text (t : Timestamp) : String := s!"{t.dateText}T{t.clockText}Z"

/-- The form of messages, such as `2024-01-01 00:00:00 UTC`. -/
def displayText (t : Timestamp) : String := s!"{t.dateText} {t.clockText} UTC"

/-! ## Reading -/

/-- One to `width` digits after optional blanks. -/
def readNumber? (width : Nat) (cs : List Char) : Option (Nat × List Char) :=
  let cs := trimStart cs
  let digits := (cs.take width).takeWhile Char.isDigit
  if digits.isEmpty then none
  else some (digits.foldl (fun n c => n * 10 + (c.toNat - 48)) 0, cs.drop digits.length)

/-- A year: up to four digits, or a sign and any number of them. -/
def readYear? (cs : List Char) : Option (Int × List Char) :=
  match trimStart cs with
  | '-' :: rest => if rest.head?.any Char.isDigit then
      (readNumber? rest.length rest).map fun (n, rest) => (-(n : Int), rest) else none
  | '+' :: rest => if rest.head?.any Char.isDigit then
      (readNumber? rest.length rest).map fun (n, rest) => ((n : Int), rest) else none
  | cs => (readNumber? 4 cs).map fun (n, rest) => ((n : Int), rest)

/-- A separator after optional blanks. -/
def skip? (c : Char) (cs : List Char) : Option (List Char) :=
  match trimStart cs with
  | d :: rest => if c = d then some rest else none
  | [] => none

/-- The nanoseconds of an optional fraction; digits past the ninth are dropped. -/
def readFraction? (cs : List Char) : Option (Nat × List Char) :=
  match cs with
  | '.' :: rest =>
    let digits := rest.takeWhile Char.isDigit
    if digits.isEmpty then none
    else
      let kept := digits.take 9
      let n := kept.foldl (fun n c => n * 10 + (c.toNat - 48)) 0
      some (n * Nat.pow 10 (9 - kept.length), rest.drop digits.length)
  | cs => some (0, cs)

/-- The offset from UTC in seconds: `Z`, `UTC`, or sign, hours and minutes. -/
def readOffset? (cs : List Char) : Option (Int × List Char) :=
  let twoDigits? : List Char → Option (Nat × List Char)
    | a :: b :: rest => do return ((← digit? a) * 10 + (← digit? b), rest)
    | _ => none
  let signed? (sign : Int) (cs : List Char) : Option (Int × List Char) := do
    let (hours, cs) ← twoDigits? cs
    let (minutes, cs) ← twoDigits? (cs.dropWhile fun c => c == ':' || isBlank c)
    if minutes < 60 then some (sign * (hours * 3600 + minutes * 60), cs) else none
  match cs with
  | 'Z' :: rest => some (0, rest)
  | 'z' :: rest => some (0, rest)
  | '+' :: rest => signed? 1 rest
  | '-' :: rest => signed? (-1) rest
  | '\u2212' :: rest => signed? (-1) rest
  | u :: t :: c :: rest => if [u, t, c].map Char.toUpper = ['U', 'T', 'C'] then some (0, rest) else none
  | _ => none

/-- The point in time of a local date and time at an offset. -/
def ofLocal? (year : Int) (month day hour minute second nanos : Nat) (offset : Int) : Option Timestamp :=
  if 1 ≤ month ∧ month ≤ 12 ∧ 1 ≤ day ∧ day ≤ daysInMonth year month ∧ hour ≤ 23 ∧ minute ≤ 59 ∧
      second ≤ 60 ∧ offset.natAbs < 86400 ∧ -262143 ≤ year ∧ year ≤ 262142 then
    let leap := if second = 60 then 1 else 0
    let time : Int := hour * 3600 + minute * 60 + second - leap
    ofParts? (daysOf year month day * 86400 + time - offset) (nanos + leap * giga)
  else none

/-- Reads a timestamp in the lenient form. -/
def read? (s : String) : Option Timestamp := do
  let (year, cs) ← readYear? s.toList
  let (month, cs) ← readNumber? 2 (← skip? '-' cs)
  let (day, cs) ← readNumber? 2 (← skip? '-' cs)
  let cs ← match cs with
    | c :: rest => if c = 'T' ∨ c = 't' ∨ c = ' ' then some rest else none
    | [] => none
  let (hour, cs) ← readNumber? 2 cs
  let (minute, cs) ← readNumber? 2 (← skip? ':' cs)
  let (second, cs) ← readNumber? 2 (← skip? ':' cs)
  let (nanos, cs) ← readFraction? cs
  let (offset, cs) ← readOffset? (trimStart cs)
  if (trimStart cs).isEmpty then ofLocal? year month day hour minute second nanos offset else none

end Backfill.Timestamp
