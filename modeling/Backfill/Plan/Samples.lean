import Backfill.Timestamp
import Backfill.Rounding

/-!
# Block samples

Blocks with the time at which they were made. Between known samples, blocks at a regular interval of
time are interpolated; without any, the tip and an average block time give a grid.
-/

namespace Backfill.Plan

/-- A block and its time. -/
structure Sample where
  number : UInt64
  time : Timestamp
  deriving DecidableEq

/-- The sample at `tick` on the line from `a` to `b`. -/
def Sample.between (a b : Sample) (tick : Timestamp) : Sample :=
  let count := b.number.toNat - a.number.toNat
  let blocks := Rounding.share count (tick.millisSince a.time).toNat (b.time.millisSince a.time).toNat
  ⟨(a.number.toNat + min blocks maxWord).toUInt64, tick⟩

/-- The samples at the ticks from `tick` on that lie before `b`, and the first tick that does not. Ticks
before `a` give no sample. A tick past the end of the calendar breaks off whoever needs it; what stands here
in place of an answer then means nothing. -/
def ticksUpTo (a b : Sample) (step : Nat) : Nat → Timestamp → List Sample × Timestamp
  | 0, tick => ([], tick)
  | fuel + 1, tick =>
    if b.time ≤ tick then ([], tick)
    else
      let here := if a.time ≤ tick then [a.between b tick] else []
      (tick.addNanos? step).elim (here, tick) fun later =>
        let (rest, tick) := ticksUpTo a b step fuel later
        (here ++ rest, tick)

/-- A pair of neighbours can be interpolated when time passes and numbers do not fall. -/
def usable (a b : Sample) : Bool :=
  decide (0 < b.time.millisSince a.time) && decide (a.number ≤ b.number)

/-- The samples at ticks between each usable pair of neighbours. -/
def ticks (step : Nat) : List Sample → Timestamp → List Sample
  | a :: b :: rest, tick =>
    if usable a b then
      let (found, tick) := ticksUpTo a b step ((Axis.rank b.time - Axis.rank tick).toNat + 1) tick
      found ++ ticks step (b :: rest) tick
    else ticks step (b :: rest) tick
  | _, _ => []

/-- Samples at every `interval` from the first known one, and the last known one at the end. An interval
of no length, or too long for the calendar, leaves the samples as they are. -/
def interpolate (known : List Sample) (interval : Nat) : List Sample :=
  match known with
  | [] => []
  | first :: _ =>
    if interval = 0 ∨ Timestamp.longest < interval then known
    else
      let found := ticks interval known first.time
      let last := known.getLastD first
      match found.getLast? with
      | none => found ++ [last]
      | some newest => if Axis.before newest.time last.time then found ++ [last] else found

/-- A grid of samples from `first` up to the tip at a steady block time. The tip closes the last slice
and opens none, so it is no part of the grid unless it is all of it. -/
def estimate (first : UInt64) (tip : Sample) (msPerBlock interval : Nat) : List Sample :=
  let first := if first ≤ tip.number then first else tip.number
  let elapsed := min (min ((tip.number.toNat - first.toNat) * msPerBlock) maxWord) maxSigned
  let start := (tip.time.addMillis? (-(elapsed : Int))).getD Timestamp.earliest
  let samples := interpolate [⟨first, start⟩, tip] interval
  if samples.length > 1 then samples.dropLast else samples

end Backfill.Plan
