import Backfill.Plan.Samples
import Backfill.Proofs.Timestamp
import Mathlib.Order.Basic

/-!
# A grid begins with its first block

The first tick is the time of the first sample, and nothing is interpolated there. So a grid from a first
block up to the tip holds that block, whatever becomes of the other ticks, if the two blocks are apart in
time; going back from the tip by whole milliseconds sees to that, and at the start of the calendar the tip
has to be a millisecond late.
-/

namespace Backfill.Plan

theorem share_zero (count whole : Nat) : Rounding.share count 0 whole = 0 := by
  have hzero : Rounding.significant 0 = 0 := by decide
  rw [Rounding.share, hzero, Nat.mul_zero, hzero, Rounding.quotient, if_pos rfl]

variable {a b tip : Sample}

theorem Sample.between_first (a b : Sample) : a.between b a.time = a := by
  have hoffset : (a.time.millisSince a.time).toNat = 0 := by rw [Timestamp.millisSince_self, Int.toNat_zero]
  have hnumber : (a.number.toNat + min 0 maxWord).toUInt64 = a.number := by simp
  rw [Sample.between, hoffset, share_zero, hnumber]

/-- Two samples apart in time, of which the second is no lower. -/
structure Apart (a b : Sample) : Prop where
  usable : usable a b = true
  before : Axis.rank a.time < Axis.rank b.time

theorem ticksUpTo_succ {tick : Timestamp} (hb : Axis.rank tick < Axis.rank b.time)
    (ha : Axis.rank a.time ≤ Axis.rank tick) (step fuel : Nat) :
    ∃ later last, ticksUpTo a b step (fuel + 1) tick = (a.between b tick :: later, last) := by
  have hbefore : ¬ b.time ≤ tick := by
    intro hle
    exact absurd ((Axis.le_iff_rank _ _).1 hle) (Int.not_le.2 hb)
  have hafter : a.time ≤ tick := (Axis.le_iff_rank _ _).2 ha
  rw [ticksUpTo, if_neg hbefore]
  simp only [if_pos hafter]
  cases tick.addNanos? step with
  | none => exact ⟨_, _, rfl⟩
  | some later => exact ⟨_, _, rfl⟩

theorem exists_ticks_eq_cons (h : Apart a b) (step : Nat) : ∃ later, ticks step [a, b] a.time = a :: later := by
  obtain ⟨later, last, hticks⟩ := ticksUpTo_succ h.before (Int.le_refl _) step
    (Axis.rank b.time - Axis.rank a.time).toNat
  rw [Sample.between_first] at hticks
  rw [ticks, if_pos h.usable, hticks]
  exact ⟨_, rfl⟩

/-- The first of two samples that are apart stays first, and another one follows. -/
theorem exists_interpolate_eq_cons (h : Apart a b) (interval : Nat) :
    ∃ x later, interpolate [a, b] interval = a :: x :: later := by
  obtain ⟨later, hticks⟩ := exists_ticks_eq_cons h interval
  simp only [interpolate]
  split
  · exact ⟨b, [], rfl⟩
  · rw [hticks]
    cases later with
    | nil =>
        -- a single tick lies before the second sample, which then is added
        have hlast : Axis.before a.time b.time = true := (Axis.before_iff _ _).2 h.before
        simp only [List.getLast?_singleton, List.getLastD_cons, List.getLastD_nil, if_pos hlast]
        exact ⟨b, [], rfl⟩
    | cons x later =>
        split
        · exact ⟨_, _, rfl⟩
        · split
          · exact ⟨_, _, rfl⟩
          · exact ⟨_, _, rfl⟩

/-! ## The estimated grid -/

variable {ms : Nat}

theorem apart_of_addMillis? (hle : a.number ≤ b.number) (hms : 0 < ms)
    (h : b.time.addMillis? (-(ms : Int)) = some a.time) : Apart a b := by
  have hback : (-(ms : Int)) * 1000000 < 0 := by omega
  have hearlier := Timestamp.earlier_of_addNanos? hback h
  refine ⟨?_, hearlier.rank_lt hback⟩
  simp only [usable, Bool.and_eq_true, decide_eq_true_eq]
  exact ⟨hearlier.millisSince_pos hms, hle⟩

theorem apart_of_earliest (hle : a.number ≤ b.number) (ha : a.time = Timestamp.earliest)
    (hb : 0 < b.time.millisSince Timestamp.earliest) : Apart a b := by
  refine ⟨?_, ?_⟩
  · simp only [usable, Bool.and_eq_true, decide_eq_true_eq, ha]
    exact ⟨hb, hle⟩
  · rw [ha]
    exact Timestamp.rank_earliest_lt hb

theorem interpolate_of_not_usable (h : ¬ usable a b = true) (interval : Nat) :
    interpolate [a, b] interval = [a, b] ∨ interpolate [a, b] interval = [b] := by
  simp only [interpolate]
  split
  · exact Or.inl rfl
  · refine Or.inr ?_
    simp [ticks, if_neg h]

/-- The milliseconds from a block to the tip, as far as they can be counted. -/
def elapsedTo (tip : Sample) (first : UInt64) (msPerBlock : Nat) : Nat :=
  min (min ((tip.number.toNat - first.toNat) * msPerBlock) maxWord) maxSigned

/-- A block at the time that a steady block time gives it. -/
def estimated (tip : Sample) (first : UInt64) (msPerBlock : Nat) : Sample :=
  ⟨first, (tip.time.addMillis? (-(elapsedTo tip first msPerBlock : Int))).getD Timestamp.earliest⟩

variable {first : UInt64} {msPerBlock : Nat}

/-- The samples that an estimate interpolates: the first block, or the tip if that is lower, and the tip. -/
def ends (first : UInt64) (tip : Sample) (msPerBlock : Nat) : List Sample :=
  [estimated tip (if first ≤ tip.number then first else tip.number) msPerBlock, tip]

theorem ends_of_le (h : first ≤ tip.number) (msPerBlock : Nat) :
    ends first tip msPerBlock = [estimated tip first msPerBlock, tip] := by
  rw [ends, if_pos h]

/-- The last of several samples is the tip, which opens no slice. -/
def opening (samples : List Sample) : List Sample := if samples.length > 1 then samples.dropLast else samples

theorem estimate_eq (first : UInt64) (tip : Sample) (msPerBlock interval : Nat) :
    estimate first tip msPerBlock interval = opening (interpolate (ends first tip msPerBlock) interval) := rfl

theorem elapsedTo_pos (hms : 1 ≤ msPerBlock) (h : first < tip.number) : 0 < elapsedTo tip first msPerBlock := by
  have hdiff : 0 < (tip.number.toNat - first.toNat) * msPerBlock :=
    Nat.mul_pos (Nat.sub_pos_of_lt (UInt64.lt_iff_toNat_lt.1 h)) hms
  simp only [elapsedTo, maxWord, maxSigned]
  omega

theorem apart_estimated (hms : 1 ≤ msPerBlock) (h : first < tip.number)
    (htip : 0 < tip.time.millisSince Timestamp.earliest) : Apart (estimated tip first msPerBlock) tip := by
  have hle : first ≤ tip.number := UInt64.le_of_lt h
  cases hstart : tip.time.addMillis? (-(elapsedTo tip first msPerBlock : Int)) with
  | none => exact apart_of_earliest hle (by rw [estimated, hstart]; rfl) htip
  | some start => exact apart_of_addMillis? hle (elapsedTo_pos hms h) (by rw [estimated, hstart]; rfl)

theorem estimated_tip (tip : Sample) (msPerBlock : Nat) : estimated tip tip.number msPerBlock = tip := by
  have hzero : elapsedTo tip tip.number msPerBlock = 0 := by
    rw [elapsedTo, Nat.sub_self, Nat.zero_mul]
    rfl
  rw [estimated, hzero, Int.natCast_zero, Int.neg_zero, Timestamp.addMillis?_zero]
  rfl

/-- The grid holds the block that it begins with. -/
theorem exists_estimate_number (tip : Sample) (h : first ≤ tip.number) (hms : 1 ≤ msPerBlock)
    (htip : 0 < tip.time.millisSince Timestamp.earliest) (interval : Nat) :
    ∃ s ∈ estimate first tip msPerBlock interval, s.number = first := by
  rw [estimate_eq, ends_of_le h]
  rcases UInt64.lt_or_eq_of_le h with hlt | rfl
  · obtain ⟨x, later, hsamples⟩ := exists_interpolate_eq_cons (apart_estimated hms hlt htip) interval
    exact ⟨estimated tip first msPerBlock, by simp [opening, hsamples], rfl⟩
  · -- at the tip no time passes, and every sample is the tip
    have husable : ¬ usable tip tip = true := by
      simp [usable, Timestamp.millisSince_self]
    rw [estimated_tip]
    rcases interpolate_of_not_usable husable interval with hsamples | hsamples
    · exact ⟨tip, by simp [opening, hsamples], rfl⟩
    · exact ⟨tip, by simp [opening, hsamples], rfl⟩

end Backfill.Plan
