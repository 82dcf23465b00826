import Backfill.Timestamp

/-!
# Clocks

Waiting goes by a timer that only moves on; locks and records of calls go by the date. The two agree in
a running program, but nothing here depends on it.
-/

namespace Backfill

/-- The date, and the reading of the timer in nanoseconds. -/
structure Clock where
  date : Timestamp
  timer : Nat

namespace Clock

/-- The clock once the timer has reached a reading; the date stands still. -/
def untilTimer (c : Clock) (timer : Nat) : Clock := { c with timer := max c.timer timer }

/-- The clock once the timer has reached a reading and the date has moved on as much. -/
def runUntil (c : Clock) (timer : Nat) : Clock := ⟨c.date.after (timer - c.timer), max c.timer timer⟩

end Clock

end Backfill
