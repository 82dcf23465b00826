import Backfill.Proofs.Timestamp

/-!
# Timestamps a duration ahead

A clock that shows a leap second as the second before it moves on by exactly the duration that is added, and the
addition fails just when that leads past the last reading of the calendar. So a step of the axis stays where it is in
the last millisecond of the calendar, and only there.
-/

namespace Backfill.Timestamp

variable {t s : Timestamp} {d : Int} {seconds nanos : Int}

/-- Nanoseconds since 1970 by a clock that shows the second before again while a leap second lasts. -/
def reading (t : Timestamp) : Int := t.seconds * 1000000000 + t.nanos % 1000000000

theorem reading_le_latest (t : Timestamp) : t.reading ≤ latest.reading := by
  have hlast := t.le_last
  simp only [reading, latest]
  omega

theorem reading_of_low (h : t.nanos < 1000000000) : t.reading = t.nanosOfEpoch := by
  simp only [reading, nanosOfEpoch]
  omega

theorem reading_latest_eq : latest.reading = latest.nanosOfEpoch := reading_of_low (by decide)

theorem reading_latest : latest.reading = 8210266876799999999999 := by decide

/-! ## Adding a duration -/

/-- A point after another one, seen from there. -/
structure Later (t s : Timestamp) (d : Int) : Prop where
  reading_eq : s.reading = t.reading + d
  /-- Out of a leap second the way leads into the next second. -/
  steady : (s.seconds = t.seconds ∧ s.nanos / 1000000000 = t.nanos / 1000000000) ∨
    (t.seconds < s.seconds ∧ s.nanos < 1000000000)

theorem Later.low (h : Later t s d) (ht : t.nanos < 1000000000) : s.nanos < 1000000000 := by
  rcases h.steady with ⟨-, hpart⟩ | ⟨-, hlow⟩
  · omega
  · exact hlow

theorem Later.seconds_le (h : Later t s d) : t.seconds ≤ s.seconds := by
  rcases h.steady with ⟨heq, -⟩ | ⟨hlt, -⟩
  · exact Int.le_of_eq heq.symm
  · exact Int.le_of_lt hlt

/-- The rank moves on by no less than the reading. -/
theorem Later.rank_add_le (h : Later t s d) : t.rank + d ≤ s.rank := by
  have hreading := h.reading_eq
  have ht := t.nanos_lt
  simp only [reading] at hreading
  simp only [rank]
  rcases h.steady with ⟨heq, hpart⟩ | ⟨hlt, hlow⟩
  · rw [heq] at hreading ⊢
    omega
  · omega

theorem Later.rank_le_latest (h : Later t s d) (ht : t.rank ≤ latest.rank) : s.rank ≤ latest.rank := by
  have hnanos := t.nanos_lt
  have hlast := s.le_last
  simp only [rank, latest] at ht ⊢
  rcases h.steady with ⟨heq, hpart⟩ | ⟨hlt, hlow⟩ <;> omega

/-- In the last millisecond of the calendar the clock tells what is later. -/
theorem rank_le_iff_of_near (ht : t.rank ≤ latest.rank) (hs : s.rank ≤ latest.rank)
    (hnear : latest.reading < t.reading + 1000000) :
    (t.rank ≤ s.rank ↔ t.reading ≤ s.reading) ∧ (s.rank ≤ t.rank ↔ s.reading ≤ t.reading) := by
  have htnanos := t.nanos_lt
  have hsnanos := s.nanos_lt
  have htlast := t.le_last
  have hslast := s.le_last
  simp only [reading, latest] at hnear
  simp only [rank, latest] at ht hs
  simp only [rank, reading]
  omega

theorem later_of_ofCarried? (hd : 0 ≤ d) (hnanos : 0 ≤ nanos ∧ nanos < 2000000000)
    (hreading : seconds * 1000000000 + nanos = t.reading + d)
    (hleap : 1000000000 ≤ t.nanos → t.seconds * 1000000000 + 1000000000 ≤ t.reading + d)
    (h : ofCarried? seconds nanos = some s) : Later t s d := by
  obtain ⟨hdist, hlow⟩ := nanosOfEpoch_ofCarried? (by omega) h
  refine ⟨by rw [reading_of_low hlow, hdist, hreading], ?_⟩
  simp only [nanosOfEpoch] at hdist
  simp only [reading] at hreading hleap
  omega

theorem later_of_addNanos? (hd : 0 ≤ d) (h : t.addNanos? d = some s) : Later t s d := by
  have hlt := t.nanos_lt
  -- whole seconds and the rest, neither of them negative
  have hsplit : (1000000000 : Int) * d.tdiv 1000000000 + d.tmod 1000000000 = d := Int.mul_tdiv_add_tmod ..
  have hwhole := Int.tdiv_nonneg hd (show (0 : Int) ≤ 1000000000 by decide)
  have hrest := Int.tmod_nonneg 1000000000 hd
  have hrest' := Int.tmod_lt_of_pos d (show (0 : Int) < 1000000000 by decide)
  simp only [addNanos?, cast_giga] at h
  split at h
  · refine later_of_ofCarried? hd (by omega) ?_ (by omega) h
    simp only [reading]
    omega
  · split at h
    · refine later_of_ofCarried? hd (by omega) ?_ ?_ h
      · simp only [reading]
        omega
      · simp only [reading]
        omega
    · rw [if_neg (by omega)] at h
      obtain ⟨hs, hn⟩ := ofParts?_eq_some h
      have hnanos := s.nanos_lt
      refine ⟨?_, Or.inl ⟨hs, by omega⟩⟩
      simp only [reading, hs]
      omega

theorem exists_addNanos? (hd : 0 ≤ d) (h : t.reading + d ≤ latest.reading) : ∃ s, t.addNanos? d = some s := by
  have hlt := t.nanos_lt
  have hfirst := t.first_le
  have hsplit : (1000000000 : Int) * d.tdiv 1000000000 + d.tmod 1000000000 = d := Int.mul_tdiv_add_tmod ..
  have hwhole := Int.tdiv_nonneg hd (show (0 : Int) ≤ 1000000000 by decide)
  have hrest := Int.tmod_nonneg 1000000000 hd
  have hrest' := Int.tmod_lt_of_pos d (show (0 : Int) < 1000000000 by decide)
  rw [reading_latest, reading] at h
  simp only [addNanos?, cast_giga]
  split
  · exact exists_ofCarried? (by omega) (by rw [nanosOfEpoch_earliest, nanosOfEpoch_latest]; omega)
  · split
    · exact exists_ofCarried? (by omega) (by rw [nanosOfEpoch_earliest, nanosOfEpoch_latest]; omega)
    · rw [if_neg (by omega)]
      exact ⟨_, dif_pos (by omega)⟩

theorem Later.unique {u : Timestamp} (h : Later t s d) (hother : Later t u d) : u = s := by
  have hs := h.reading_eq
  have hu := hother.reading_eq
  simp only [reading] at hs hu
  obtain ⟨hseconds, hnanos⟩ : u.seconds = s.seconds ∧ u.nanos = s.nanos := by
    rcases h.steady with ⟨heq, hpart⟩ | ⟨hlt, hlow⟩ <;>
      rcases hother.steady with ⟨heq', hpart'⟩ | ⟨hlt', hlow'⟩ <;> omega
  apply rank_inj
  rw [rank, rank, hseconds, hnanos]

theorem Later.trans {u : Timestamp} {e : Int} (h : Later t s d) (hnext : Later s u e) : Later t u (d + e) := by
  refine ⟨by rw [hnext.reading_eq, h.reading_eq, Int.add_assoc], ?_⟩
  rcases h.steady with ⟨heq, hpart⟩ | ⟨hlt, hlow⟩
  · rw [← heq, ← hpart]
    exact hnext.steady
  · exact Or.inr ⟨Int.lt_of_lt_of_le hlt hnext.seconds_le, hnext.low hlow⟩

theorem addNanos?_eq_some_iff (hd : 0 ≤ d) : t.addNanos? d = some s ↔ Later t s d := by
  refine ⟨later_of_addNanos? hd, fun h => ?_⟩
  obtain ⟨u, hu⟩ := exists_addNanos? hd (h.reading_eq ▸ s.reading_le_latest)
  rw [hu, h.unique (later_of_addNanos? hd hu)]

/-! ## Steps of the axis -/

theorem advance_of_le {n : Nat} (h : t.reading + (min n maxSigned : Nat) * 1000000 ≤ latest.reading) :
    Later t (Axis.advance t n) ((min n maxSigned : Nat) * 1000000) := by
  obtain ⟨s, hs⟩ := exists_addNanos? (by omega) h
  have hadvance : Axis.advance t n = s := congrArg (·.getD latest) hs
  rw [hadvance]
  exact later_of_addNanos? (by omega) hs

theorem advance_of_lt {n : Nat} (h : latest.reading < t.reading + (min n maxSigned : Nat) * 1000000) :
    Axis.advance t n = latest := by
  have hnone : t.addNanos? ((min n maxSigned : Nat) * 1000000) = none := by
    rw [Option.eq_none_iff_forall_ne_some]
    intro s hs
    have hreading := (later_of_addNanos? (by omega) hs).reading_eq
    have := s.reading_le_latest
    omega
  exact congrArg (·.getD latest) hnone

theorem next_of_le (h : t.reading + 1000000 ≤ latest.reading) : Later t (Axis.next t) 1000000 := by
  obtain ⟨s, hs⟩ := exists_addNanos? (by decide) h
  have hnext : Axis.next t = s := congrArg (·.getD t) hs
  rw [hnext]
  exact later_of_addNanos? (by decide) hs

theorem next_of_lt (h : latest.reading < t.reading + 1000000) : Axis.next t = t := by
  have hnone : t.addNanos? 1000000 = none := by
    rw [Option.eq_none_iff_forall_ne_some]
    intro s hs
    have hreading := (later_of_addNanos? (by decide) hs).reading_eq
    have := s.reading_le_latest
    omega
  exact congrArg (·.getD t) hnone

theorem advance_zero (t : Timestamp) : Axis.advance t 0 = t := by
  have hself : t.addNanos? ((min 0 maxSigned : Nat) * 1000000) = some t := t.addMillis?_zero
  exact congrArg (·.getD latest) hself

theorem advance_latest (n : Nat) : Axis.advance latest n = latest := by
  by_cases hn : n = 0
  · rw [hn, advance_zero]
  · refine advance_of_lt ?_
    unfold maxSigned
    omega

theorem next_latest : Axis.next latest = latest := next_of_lt (by omega)

end Backfill.Timestamp
