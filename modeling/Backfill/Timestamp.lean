import Backfill.Range

/-!
# Timestamps

Points in time in UTC with nanosecond precision, in years -262143 to 262142. A leap second keeps the
second it belongs to and counts a billion nanoseconds or more in it. As an axis, timestamps step by a
millisecond and stay put where a step would leave the calendar.
-/

namespace Backfill

/-- Nanoseconds in a second. -/
def giga : Nat := 1000000000

/-- A point in time: seconds since 1970 and nanoseconds in that second. -/
structure Timestamp where
  seconds : Int
  nanos : Nat
  first_le : -8334601228800 ≤ seconds
  le_last : seconds ≤ 8210266876799
  nanos_lt : nanos < 2000000000
  deriving DecidableEq

namespace Timestamp

instance : Inhabited Timestamp := ⟨⟨0, 0, by decide, by decide, by decide⟩⟩

/-- The start of 1970. -/
def epoch : Timestamp := default

/-- The earliest point of the calendar. -/
def earliest : Timestamp := ⟨-8334601228800, 0, by decide, by decide, by decide⟩

/-- The latest point of the calendar that is in no leap second. -/
def latest : Timestamp := ⟨8210266876799, 999999999, by decide, by decide, by decide⟩

/-- The point with these parts, when it lies in the calendar. -/
def ofParts? (seconds nanos : Int) : Option Timestamp :=
  if h : -8334601228800 ≤ seconds ∧ seconds ≤ 8210266876799 ∧ nanos.toNat < 2000000000 then
    some ⟨seconds, nanos.toNat, h.1, h.2.1, h.2.2⟩
  else none

/-! ## Durations -/

/-- Seconds and nanoseconds with a carry of at most one second. -/
def ofCarried? (seconds nanos : Int) : Option Timestamp :=
  if nanos < 0 then ofParts? (seconds - 1) (nanos + giga)
  else if nanos ≥ giga then ofParts? (seconds + 1) (nanos - giga)
  else ofParts? seconds nanos

/-- A point so many nanoseconds later. A leap second counts only for durations that stay inside it. -/
def addNanos? (t : Timestamp) (d : Int) : Option Timestamp :=
  let s := d.tdiv giga
  let f := d.tmod giga
  let n : Int := t.nanos
  if n < giga then ofCarried? (t.seconds + s) (n + f)
  else if s > 0 ∨ (f > 0 ∧ n + f ≥ 2 * giga) then ofCarried? (t.seconds + s) (n - giga + f)
  else if s < 0 then ofCarried? (t.seconds + 1 + s) (n - giga + f)
  else ofParts? t.seconds (n + f)

/-- The longest duration that can be added or measured: 2⁶³ - 1 milliseconds. -/
def longest : Nat := maxSigned * 1000000

/-- A point so many milliseconds away. -/
def addMillis? (t : Timestamp) (ms : Int) : Option Timestamp := t.addNanos? (ms * 1000000)

/-- The second of the day. -/
def secondOfDay (t : Timestamp) : Int := t.seconds % 86400

/-- Nanoseconds from `b` to `a`. A leap second counts when the time of day runs past it. -/
def nanosSince (a b : Timestamp) : Int :=
  let leap : Int :=
    if b.secondOfDay < a.secondOfDay ∧ b.nanos ≥ giga then 1
    else if a.secondOfDay < b.secondOfDay ∧ a.nanos ≥ giga then -1
    else 0
  (a.seconds - b.seconds + leap) * giga + (a.nanos - b.nanos)

/-- Whole milliseconds from `b` to `a`, toward zero. -/
def millisSince (a b : Timestamp) : Int := (a.nanosSince b).tdiv 1000000

/-- A duration later, clamped to the latest point. -/
def after (t : Timestamp) (nanos : Nat) : Timestamp :=
  if nanos ≤ longest then (t.addNanos? nanos).getD latest else latest

/-- What is left of `delay` after the last call, nothing when it has passed. -/
def remainingDelay (lastCall now : Timestamp) (delay : Nat) : Nat :=
  delay - (now.nanosSince lastCall).toNat

/-! ## The axis -/

/-- Seconds first, nanoseconds second, on one integer line. -/
def rank (t : Timestamp) : Int := t.seconds * 2000000000 + t.nanos

theorem rank_inj {a b : Timestamp} (h : a.rank = b.rank) : a = b := by
  obtain ⟨s, n, _, _, _⟩ := a
  obtain ⟨s', n', _, _, _⟩ := b
  simp only [rank] at h
  obtain rfl : s = s' := by omega
  obtain rfl : n = n' := by omega
  rfl

instance : LE Timestamp := ⟨fun a b => a.rank ≤ b.rank⟩

instance : DecidableLE Timestamp := fun a b => inferInstanceAs (Decidable (a.rank ≤ b.rank))

/-- Milliseconds in an inclusive interval, at most the largest word. -/
def span (a b : Timestamp) : Nat :=
  if a ≤ b then
    let ms := b.millisSince a
    if ms < 0 then maxWord else min (ms.toNat + 1) maxWord
  else 0

instance : Axis Timestamp where
  decLe := inferInstance
  rank := rank
  le_iff_rank _ _ := Iff.rfl
  rank_inj _ _ := rank_inj
  next t := (t.addMillis? 1).getD t
  prev t := (t.addMillis? (-1)).getD t
  span := span
  advance t n := (t.addMillis? (min n maxSigned : Nat)).getD latest

end Timestamp

end Backfill
