import Backfill.Proofs.Range.Ending
import Backfill.Proofs.Range.Image

/-!
# Timestamps whole milliseconds apart

Timestamps a whole number of milliseconds after a common one, in no leap second, lie in the order of these numbers and
a step apart for each, up to the end of the calendar. So ranges of them behave like ranges of numbers.
-/

namespace Backfill

namespace Timestamp

variable {t s base : Timestamp} {k top : UInt64}

theorem eq_of_nanosOfEpoch (ht : t.nanos < 1000000000) (hs : s.nanos < 1000000000)
    (h : t.nanosOfEpoch = s.nanosOfEpoch) : t = s := by
  apply rank_inj
  simp only [nanosOfEpoch] at h
  simp only [rank]
  omega

theorem nanosOfEpoch_le_latest (ht : t.nanos < 1000000000) : t.nanosOfEpoch ≤ latest.nanosOfEpoch := by
  have hlast := t.le_last
  rw [nanosOfEpoch_latest, nanosOfEpoch]
  omega

theorem earliest_le_nanosOfEpoch (t : Timestamp) : earliest.nanosOfEpoch ≤ t.nanosOfEpoch := by
  have hfirst := t.first_le
  rw [nanosOfEpoch_earliest, nanosOfEpoch]
  omega

/-- So many milliseconds after `base`. -/
def tick (base : Timestamp) (k : UInt64) : Timestamp := (base.addMillis? k.toNat).getD base

/-- The calendar reaches `top` milliseconds after `base`, which is in no leap second. -/
structure Grid (base : Timestamp) (top : UInt64) : Prop where
  low : base.nanos < 1000000000
  fits : (base.addMillis? top.toNat).isSome = true

namespace Grid

variable (g : Grid base top)
include g

theorem room : base.nanosOfEpoch + Axis.rank top * 1000000 ≤ latest.nanosOfEpoch := by
  obtain ⟨s, hs⟩ := Option.isSome_iff_exists.1 g.fits
  have hmove := later_of_addNanos? (by omega) hs
  have hreading := hmove.reading_eq
  have hlast := nanosOfEpoch_le_latest (hmove.low g.low)
  rw [reading_of_low (hmove.low g.low), reading_of_low g.low] at hreading
  rw [rank_word]
  omega

theorem addMillis?_eq (hk : Axis.rank k ≤ Axis.rank top) : base.addMillis? k.toNat = some (base.tick k) := by
  have hroom := g.room
  simp only [rank_word] at hk hroom
  obtain ⟨s, hs⟩ := exists_addNanos? (t := base) (d := k.toNat * 1000000) (by omega) (by
    rw [reading_of_low g.low, reading_latest_eq]
    omega)
  have hs : base.addMillis? k.toNat = some s := hs
  rw [Timestamp.tick, hs, Option.getD_some]

theorem tick_spec (hk : Axis.rank k ≤ Axis.rank top) : (base.tick k).nanos < 1000000000 ∧
    (base.tick k).nanosOfEpoch = base.nanosOfEpoch + Axis.rank k * 1000000 := by
  have hmove := later_of_addNanos? (by omega) (g.addMillis?_eq hk)
  have hlow := hmove.low g.low
  have hreading := hmove.reading_eq
  rw [reading_of_low hlow, reading_of_low g.low] at hreading
  exact ⟨hlow, hreading⟩

theorem eq_tick (hk : Axis.rank k ≤ Axis.rank top) (ht : t.nanos < 1000000000)
    (h : t.nanosOfEpoch = base.nanosOfEpoch + Axis.rank k * 1000000) : base.tick k = t :=
  eq_of_nanosOfEpoch (g.tick_spec hk).1 ht (by rw [(g.tick_spec hk).2, h])

/-! ## Order and distance -/

variable {a b : UInt64} (ha : Axis.rank a ≤ Axis.rank top) (hb : Axis.rank b ≤ Axis.rank top)
include ha hb

theorem rank_tick_le_iff : Axis.rank (base.tick a) ≤ Axis.rank (base.tick b) ↔ Axis.rank a ≤ Axis.rank b := by
  obtain ⟨halow, hadist⟩ := g.tick_spec ha
  obtain ⟨hblow, hbdist⟩ := g.tick_spec hb
  have hlt : Axis.rank (base.tick b) < Axis.rank (base.tick a) ↔ _ := rank_lt_iff hblow halow
  omega

theorem millisSince_tick : (base.tick b).millisSince (base.tick a) = Axis.rank b - Axis.rank a := by
  obtain ⟨halow, hadist⟩ := g.tick_spec ha
  obtain ⟨hblow, hbdist⟩ := g.tick_spec hb
  have hnanos : (base.tick b).nanosSince (base.tick a) = (Axis.rank b - Axis.rank a) * 1000000 := by
    have hgiga : giga = 1000000000 := rfl
    simp only [nanosOfEpoch] at hadist hbdist
    simp only [nanosSince, cast_giga]
    split
    · omega
    · split <;> omega
  rw [millisSince, hnanos, Int.mul_tdiv_cancel _ (show (1000000 : Int) ≠ 0 by omega)]

theorem span_tick : Axis.span (base.tick a) (base.tick b) = Axis.span a b := by
  have hspan : Axis.span (base.tick a) (base.tick b) = Timestamp.span (base.tick a) (base.tick b) := rfl
  have hword : Axis.span a b = wordSpan a b := rfl
  have hle : base.tick a ≤ base.tick b ↔ Axis.rank a ≤ Axis.rank b :=
    (Axis.le_iff_rank _ _).trans (g.rank_tick_le_iff ha hb)
  rw [hspan, Timestamp.span, hword, wordSpan, g.millisSince_tick ha hb]
  simp only [hle, UInt64.lt_iff_toNat_lt]
  rw [rank_word, rank_word]
  split
  · have hcount : ((b.toNat : Int) - a.toNat).toNat = b.toNat - a.toNat := by omega
    rw [if_neg (by omega), if_neg (by omega), hcount]
  · rw [if_pos (by omega)]

omit ha hb

/-! ## Steps -/

theorem next_tick (hlt : Axis.rank a < Axis.rank top) : base.tick (Axis.next a) = Axis.next (base.tick a) := by
  have hnext := rank_next_of_lt hlt
  have hroom := g.room
  obtain ⟨hlow, hdist⟩ := g.tick_spec (Int.le_of_lt hlt)
  have hmove := next_of_le (t := base.tick a) (by
    rw [reading_of_low hlow, reading_latest_eq]
    omega)
  have hlow' := hmove.low hlow
  have hreading := hmove.reading_eq
  rw [reading_of_low hlow', reading_of_low hlow] at hreading
  exact g.eq_tick (by omega) hlow' (by omega)

theorem prev_tick (hlt : Axis.rank b < Axis.rank a) (ha : Axis.rank a ≤ Axis.rank top) :
    base.tick (Axis.prev a) = Axis.prev (base.tick a) := by
  have hprev := rank_prev_of_lt hlt
  have hpos : 0 ≤ Axis.rank b := Int.natCast_nonneg _
  have hfirst := base.earliest_le_nanosOfEpoch
  obtain ⟨hlow, hdist⟩ := g.tick_spec ha
  have hlast := nanosOfEpoch_le_latest hlow
  obtain ⟨s, hs, hback, hlow'⟩ := exists_addMillis?_of_low hlow (Or.inr rfl) (by omega)
  have hstep : Axis.prev (base.tick a) = s := congrArg (·.getD (base.tick a)) hs
  rw [hstep]
  exact g.eq_tick (by omega) hlow' (by omega)

/-- The calendar is shorter than the longest duration. -/
theorem le_add_steps {n : Nat} (hb : Axis.rank b ≤ Axis.rank top) (h : Axis.rank b ≤ Axis.rank a + n) :
    Axis.rank b ≤ Axis.rank a + (min n maxSigned : Nat) := by
  have hroom := g.room
  have hfirst := base.earliest_le_nanosOfEpoch
  have hpos : 0 ≤ Axis.rank a := Int.natCast_nonneg _
  rw [nanosOfEpoch_earliest] at hfirst
  rw [nanosOfEpoch_latest] at hroom
  unfold maxSigned
  omega

theorem advance_tick_of_le {n : Nat} (h : Axis.rank a + n ≤ Axis.rank top) :
    Axis.advance (base.tick a) n = base.tick (Axis.advance a n) := by
  have hroom := g.room
  have hadvance := rank_advance_eq h
  obtain ⟨hlow, hdist⟩ := g.tick_spec (k := a) (by omega)
  have hmove : Later (base.tick a) (Axis.advance (base.tick a) n) (n * 1000000) := by
    have hsteps : min n maxSigned = n := by
      have hle := g.le_add_steps (hadvance ▸ h) (Int.le_of_eq hadvance)
      rw [hadvance] at hle
      exact Nat.le_antisymm (Nat.min_le_left ..) (Int.ofNat_le.1 (Int.le_of_add_le_add_left hle))
    have hstay : (base.tick a).reading + n * 1000000 ≤ latest.reading := by
      rw [reading_of_low hlow, reading_latest_eq]
      omega
    have hmove := advance_of_le (t := base.tick a) (n := n) (by rwa [hsteps])
    rwa [hsteps] at hmove
  have hlow' := hmove.low hlow
  have hreading := hmove.reading_eq
  rw [reading_of_low hlow', reading_of_low hlow] at hreading
  exact (g.eq_tick (by omega) hlow' (by omega)).symm

theorem tick_le_advance {n : Nat} (ha : Axis.rank a ≤ Axis.rank top) (hb : Axis.rank b ≤ Axis.rank top)
    (h : Axis.rank b ≤ Axis.rank a + n) : Axis.rank (base.tick b) ≤ Axis.rank (Axis.advance (base.tick a) n) := by
  have hsteps := g.le_add_steps hb h
  obtain ⟨halow, hadist⟩ := g.tick_spec ha
  obtain ⟨hblow, hbdist⟩ := g.tick_spec hb
  rcases lt_or_ge latest.reading ((base.tick a).reading + (min n maxSigned : Nat) * 1000000) with hover | hroom
  · have hlast := nanosOfEpoch_le_latest hblow
    have hlt : Axis.rank latest < Axis.rank (base.tick b) ↔ _ := rank_lt_iff (by decide) hblow
    rw [advance_of_lt hover]
    exact Int.not_lt.1 fun hlater => absurd (hlt.1 hlater) (Int.not_lt.2 hlast)
  · have hmove := advance_of_le hroom
    have hlow := hmove.low halow
    have hreading := hmove.reading_eq
    have hlt : Axis.rank (Axis.advance (base.tick a) n) < Axis.rank (base.tick b) ↔ _ := rank_lt_iff hlow hblow
    rw [reading_of_low hlow, reading_of_low halow] at hreading
    have hle : (base.tick b).nanosOfEpoch ≤ (Axis.advance (base.tick a) n).nanosOfEpoch := by
      rw [hreading]
      generalize min n maxSigned = steps at hsteps
      omega
    exact Int.not_lt.1 fun hlater => absurd (hlt.1 hlater) (Int.not_lt.2 hle)

theorem advance_tick (n : Nat) (hab : Axis.rank a ≤ Axis.rank b) (hb : Axis.rank b ≤ Axis.rank top) :
    base.tick (Axis.earlier (Axis.advance a n) b) =
      Axis.earlier (Axis.advance (base.tick a) n) (base.tick b) := by
  rcases Int.le_total (Axis.rank a + n) (Axis.rank b) with hnear | hfar
  · have hadvance := rank_advance_eq hnear
    rw [Axis.earlier_of_le (by omega), g.advance_tick_of_le (Int.le_trans hnear hb), Axis.earlier_of_le]
    exact (g.rank_tick_le_iff (by omega) hb).2 (by omega)
  · rw [Axis.earlier_of_ge (rank_le_advance hfar),
      Axis.earlier_of_ge (g.tick_le_advance (Int.le_trans hab hb) hb hfar)]

end Grid

theorem Grid.placement (g : Grid base top) : Placement base.tick top where
  rank_le_iff := g.rank_tick_le_iff
  next := g.next_tick
  le_next _ := rank_le_next _
  prev := g.prev_tick
  advance := g.advance_tick
  span := g.span_tick

end Timestamp

namespace Range

/-- Ranges of timestamps whole milliseconds after a common one behave like ranges of blocks: whatever is done with them
gives the same milliseconds after it as with the numbers, up to the last millisecond that the calendar has room for,
and cutting comes to an end. The calendar has room for less than 2⁶² of them. -/
theorem millis_agree_with_blocks {base : Timestamp} {top : UInt64} (g : Timestamp.Grid base top) (full : Range UInt64)
    (a b : List (Range UInt64)) (length limit : Nat) (order : Order) (hfull : full.Upto top)
    (ha : ∀ r ∈ a, r.Upto top) (hb : ∀ r ∈ b, r.Upto top) :
    let date := Range.map base.tick
    let dates := List.map date
    (∀ k, k ≤ top → base.addMillis? k.toNat = some (base.tick k)) ∧
    merge (dates a) = dates (merge a) ∧
    exclude (dates a) (dates b) = dates (exclude a b) ∧
    clip (dates a) (date full) = dates (clip a full) ∧
    totalSize (dates a) = totalSize a ∧
    (∀ r ∈ dates a, SplitEnds r length) ∧
    splitAll (dates a) length = dates (splitAll a length) ∧
    takePieces (dates a) length limit order = dates (takePieces a length limit order) ∧
    (∀ r ∈ exclude [date full] (dates a ++ clip (dates b) (date full)) ++ clip (dates b) (date full),
      SplitEnds r length) ∧
    todo (date full) (dates a) (dates b) length limit = (todo full a b length limit).map base.tick := by
  intro date dates
  have h := g.placement
  refine ⟨fun k hk => g.addMillis?_eq ((Axis.le_iff_rank _ _).1 hk), merge_map h ha, exclude_map h ha hb,
    clip_map h ha hfull, totalSize_map h ha, ?_, splitAll_map h ha length, takePieces_map h ha length limit order,
    splitEnds_todo_map h hfull ha hb length, todo_map h hfull ha hb length limit⟩
  exact List.forall_mem_map.2 fun r hr => splitEnds_map h (ha r hr) length

/-- The last ten milliseconds of the calendar. -/
theorem millis_agree_with_blocks_latest :
    let base := beforeLatest 10000000
    Timestamp.Grid base 10 ∧ base.tick 10 = Timestamp.latest ∧
    splitAll [⟨base.tick 4, base.tick 10⟩] 3 =
      [⟨base.tick 4, base.tick 6⟩, ⟨base.tick 7, base.tick 9⟩, ⟨base.tick 10, base.tick 10⟩] ∧
    exclude [⟨base.tick 0, base.tick 10⟩] [⟨base.tick 4, base.tick 10⟩] = [⟨base.tick 0, base.tick 3⟩] := by
  intro base
  have g : Timestamp.Grid base 10 := ⟨by decide, by decide +kernel⟩
  obtain ⟨-, -, hexclude, -⟩ := millis_agree_with_blocks g ⟨0, 10⟩ [⟨0, 10⟩] [⟨4, 10⟩] 3 1 .oldestFirst (by decide)
    (by decide) (by decide)
  obtain ⟨-, -, -, -, -, -, hsplit, -⟩ := millis_agree_with_blocks g ⟨0, 10⟩ [⟨4, 10⟩] [] 3 1 .oldestFirst (by decide)
    (by decide) (by decide)
  have hpieces : splitAll [(⟨4, 10⟩ : Range UInt64)] 3 = [⟨4, 6⟩, ⟨7, 9⟩, ⟨10, 10⟩] := by decide +kernel
  have hleft : exclude [(⟨0, 10⟩ : Range UInt64)] [⟨4, 10⟩] = [⟨0, 3⟩] := by decide +kernel
  rw [hpieces] at hsplit
  rw [hleft] at hexclude
  exact ⟨g, by decide +kernel, hsplit, hexclude⟩

end Range

end Backfill
