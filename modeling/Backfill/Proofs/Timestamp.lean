import Backfill.Timestamp
import Mathlib.Order.Basic

/-!
# Timestamps a duration away

Going back by a duration gives an earlier point, as far away as the duration says, except that a day may
begin inside a leap second, which is then no part of the distance. A step of the axis is a millisecond wherever
no leap second and no end of the calendar is near.
-/

namespace Backfill.Timestamp

variable {t s : Timestamp} {d : Int}

theorem cast_giga : (giga : Int) = 1000000000 := by simp [giga]

/-- Nanoseconds since 1970, those of a leap second on top of its second. -/
def nanosOfEpoch (t : Timestamp) : Int := t.seconds * 1000000000 + t.nanos

theorem ofParts?_eq_some {seconds nanos : Int} (h : ofParts? seconds nanos = some t) :
    t.seconds = seconds ∧ (t.nanos : Int) = max nanos 0 := by
  unfold ofParts? at h
  split at h
  · cases h
    exact ⟨rfl, by simp only; omega⟩
  · cases h

theorem ofParts?_self (t : Timestamp) : ofParts? t.seconds t.nanos = some t := by
  have hparts : -8334601228800 ≤ t.seconds ∧ t.seconds ≤ 8210266876799 ∧ (t.nanos : Int).toNat < 2000000000 :=
    ⟨t.first_le, t.le_last, t.nanos_lt⟩
  rw [ofParts?, dif_pos hparts]
  rfl

theorem addMillis?_zero (t : Timestamp) : t.addMillis? 0 = some t := by
  have hself := ofParts?_self t
  simp only [addMillis?, addNanos?, cast_giga, Int.zero_mul, Int.zero_tdiv, Int.zero_tmod, Int.add_zero, Int.lt_irrefl]
  split
  · rename_i hlow
    rw [ofCarried?, if_neg (by omega), if_neg (by rw [cast_giga]; omega), hself]
  · rw [if_neg (by simp), if_neg (by simp), hself]

/-- A point before another one, seen from there. -/
structure Earlier (s t : Timestamp) (d : Int) : Prop where
  seconds_le : s.seconds ≤ t.seconds
  distance : s.nanosOfEpoch - t.nanosOfEpoch = d
  /-- Only inside one leap second does the way back end in a leap second. -/
  steady : s.nanos < 1000000000 ∨ s.seconds = t.seconds

theorem nanosOfEpoch_ofCarried? {seconds nanos : Int} (hnanos : -1000000000 ≤ nanos ∧ nanos < 2000000000)
    (h : ofCarried? seconds nanos = some t) :
    t.nanosOfEpoch = seconds * 1000000000 + nanos ∧ t.nanos < 1000000000 := by
  simp only [ofCarried?, cast_giga] at h
  split at h
  · obtain ⟨hs, hn⟩ := ofParts?_eq_some h
    simp only [nanosOfEpoch]
    omega
  · split at h
    · obtain ⟨hs, hn⟩ := ofParts?_eq_some h
      simp only [nanosOfEpoch]
      omega
    · obtain ⟨hs, hn⟩ := ofParts?_eq_some h
      simp only [nanosOfEpoch]
      omega

theorem ofCarried?_eq_some {seconds nanos : Int} (hnanos : -1000000000 ≤ nanos ∧ nanos < 1000000000)
    (h : ofCarried? seconds nanos = some t) :
    t.seconds ≤ seconds ∧ t.nanosOfEpoch = seconds * 1000000000 + nanos ∧ t.nanos < 1000000000 := by
  obtain ⟨hdist, hlow⟩ := nanosOfEpoch_ofCarried? (by omega) h
  refine ⟨?_, hdist, hlow⟩
  simp only [nanosOfEpoch] at hdist
  omega

theorem earlier_of_addNanos? (hd : d < 0) (h : t.addNanos? d = some s) : Earlier s t d := by
  have hlt := t.nanos_lt
  -- whole seconds and the rest, both toward zero
  have hsplit : (1000000000 : Int) * d.tdiv 1000000000 + d.tmod 1000000000 = d := Int.mul_tdiv_add_tmod ..
  have hrest : -1000000000 < d.tmod 1000000000 ∧ d.tmod 1000000000 ≤ 0 := by
    have hlow := Int.lt_tmod_of_pos d (show (0 : Int) < 1000000000 by decide)
    have hback := Int.tmod_nonneg 1000000000 (show (0 : Int) ≤ -d by omega)
    rw [Int.neg_tmod] at hback
    omega
  simp only [addNanos?, cast_giga] at h
  split at h
  · obtain ⟨hs, hn, hlow⟩ := ofCarried?_eq_some (by omega) h
    exact ⟨by omega, by simp only [nanosOfEpoch] at hn ⊢; omega, Or.inl hlow⟩
  · split at h
    · omega
    · split at h
      · obtain ⟨hs, hn, hlow⟩ := ofCarried?_eq_some (by omega) h
        exact ⟨by omega, by simp only [nanosOfEpoch] at hn ⊢; omega, Or.inl hlow⟩
      · obtain ⟨hs, hn⟩ := ofParts?_eq_some h
        exact ⟨by omega, by simp only [nanosOfEpoch]; omega, Or.inr hs⟩

theorem Earlier.rank_lt (h : Earlier s t d) (hd : d < 0) : s.rank < t.rank := by
  have hle := h.seconds_le
  have hdist := h.distance
  have hs := s.nanos_lt
  simp only [nanosOfEpoch] at hdist
  simp only [rank]
  omega

/-- Going back by whole milliseconds leaves at least one of them. -/
theorem Earlier.millisSince_pos {ms : Nat} (h : Earlier s t (-(ms : Int) * 1000000)) (hms : 0 < ms) :
    0 < t.millisSince s := by
  have hle := h.seconds_le
  have hdist := h.distance
  have hsteady := h.steady
  have hday : s.seconds = t.seconds → s.secondOfDay = t.secondOfDay := by
    intro heq
    rw [secondOfDay, secondOfDay, heq]
  have hgiga : giga = 1000000000 := rfl
  have hnanos : 1000000 ≤ t.nanosSince s := by
    simp only [nanosOfEpoch] at hdist
    simp only [nanosSince, cast_giga]
    split
    · omega
    · split <;> omega
  rw [millisSince, Int.tdiv_eq_ediv_of_nonneg (by omega)]
  omega

theorem rank_earliest_lt (h : 0 < t.millisSince earliest) : earliest.rank < t.rank := by
  by_contra hge
  have hfirst := t.first_le
  have heq : t = earliest := by
    apply rank_inj
    simp only [rank, earliest] at hge ⊢
    omega
  rw [heq] at h
  exact absurd h (by decide)

theorem millisSince_self (t : Timestamp) : t.millisSince t = 0 := by
  simp [millisSince, nanosSince]

/-! ## Steps -/

/-- In no leap second, and a day or more away from both ends of the calendar. -/
structure Plain (t : Timestamp) : Prop where
  nanos_lt : t.nanos < 1000000000
  first_le : earliest.seconds + 86400 ≤ t.seconds
  le_last : t.seconds + 86400 ≤ latest.seconds

instance (t : Timestamp) : Decidable t.Plain :=
  decidable_of_iff (t.nanos < 1000000000 ∧ earliest.seconds + 86400 ≤ t.seconds ∧ t.seconds + 86400 ≤ latest.seconds)
    ⟨fun h => ⟨h.1, h.2.1, h.2.2⟩, fun h => ⟨h.1, h.2, h.3⟩⟩

theorem rank_lt_iff (hs : s.nanos < 1000000000) (ht : t.nanos < 1000000000) :
    s.rank < t.rank ↔ s.nanosOfEpoch < t.nanosOfEpoch := by
  simp only [rank, nanosOfEpoch]
  omega

theorem nanosOfEpoch_earliest : earliest.nanosOfEpoch = -8334601228800000000000 := by decide

theorem nanosOfEpoch_latest : latest.nanosOfEpoch = 8210266876799999999999 := by decide

theorem exists_ofCarried? {seconds nanos : Int} (hnanos : -1000000000 ≤ nanos ∧ nanos < 2000000000)
    (hpoint : earliest.nanosOfEpoch ≤ seconds * 1000000000 + nanos ∧
      seconds * 1000000000 + nanos ≤ latest.nanosOfEpoch) : ∃ t, ofCarried? seconds nanos = some t := by
  rw [nanosOfEpoch_earliest, nanosOfEpoch_latest] at hpoint
  simp only [ofCarried?, cast_giga, ofParts?]
  split
  · exact ⟨_, dif_pos (by omega)⟩
  · split
    · exact ⟨_, dif_pos (by omega)⟩
    · exact ⟨_, dif_pos (by omega)⟩

theorem exists_addMillis?_of_low (hlow : t.nanos < 1000000000) {ms : Int} (hms : ms = 1 ∨ ms = -1)
    (hpoint : earliest.nanosOfEpoch ≤ t.nanosOfEpoch + ms * 1000000 ∧
      t.nanosOfEpoch + ms * 1000000 ≤ latest.nanosOfEpoch) :
    ∃ s, t.addMillis? ms = some s ∧ s.nanosOfEpoch = t.nanosOfEpoch + ms * 1000000 ∧ s.nanos < 1000000000 := by
  have hwhole : (ms * 1000000).tdiv 1000000000 = 0 := by rcases hms with rfl | rfl <;> decide
  have hrest : (ms * 1000000).tmod 1000000000 = ms * 1000000 := by rcases hms with rfl | rfl <;> decide
  have hcarry : -1000000000 ≤ (t.nanos : Int) + ms * 1000000 ∧ (t.nanos : Int) + ms * 1000000 < 2000000000 := by omega
  rw [addMillis?, addNanos?, cast_giga, hwhole, hrest, Int.add_zero, if_pos (by omega)]
  have hparts : t.nanosOfEpoch + ms * 1000000 = t.seconds * 1000000000 + (t.nanos + ms * 1000000) := Int.add_assoc ..
  obtain ⟨s, hs⟩ := exists_ofCarried? hcarry (hparts ▸ hpoint)
  obtain ⟨hdist, hlow⟩ := nanosOfEpoch_ofCarried? hcarry hs
  refine ⟨s, hs, ?_, hlow⟩
  rw [hdist, nanosOfEpoch]
  omega

theorem Plain.exists_addMillis? (h : t.Plain) {ms : Int} (hms : ms = 1 ∨ ms = -1) :
    ∃ s, t.addMillis? ms = some s ∧ s.nanosOfEpoch = t.nanosOfEpoch + ms * 1000000 ∧ s.nanos < 1000000000 := by
  obtain ⟨hnanos, hfirst, hlast⟩ := h
  refine exists_addMillis?_of_low hnanos hms ?_
  simp only [earliest, latest] at hfirst hlast
  rw [nanosOfEpoch_earliest, nanosOfEpoch_latest, nanosOfEpoch]
  omega

theorem Plain.next (h : t.Plain) :
    (Axis.next t).nanosOfEpoch = t.nanosOfEpoch + 1000000 ∧ (Axis.next t).nanos < 1000000000 := by
  obtain ⟨s, hs, hdist, hlow⟩ := h.exists_addMillis? (Or.inl rfl)
  have hnext : Axis.next t = s := congrArg (·.getD t) hs
  rw [hnext]
  exact ⟨by omega, hlow⟩

theorem Plain.prev (h : t.Plain) :
    (Axis.prev t).nanosOfEpoch = t.nanosOfEpoch - 1000000 ∧ (Axis.prev t).nanos < 1000000000 := by
  obtain ⟨s, hs, hdist, hlow⟩ := h.exists_addMillis? (Or.inr rfl)
  have hprev : Axis.prev t = s := congrArg (·.getD t) hs
  rw [hprev]
  exact ⟨by omega, hlow⟩

/-- A step later is never earlier, not even out of a leap second. -/
theorem rank_le_next (t : Timestamp) : Axis.rank t ≤ Axis.rank (Axis.next t) := by
  have hnext : Axis.next t = (t.addMillis? 1).getD t := rfl
  rw [hnext]
  cases hstep : t.addMillis? 1 with
  | none => exact Int.le_refl _
  | some s =>
      have hnanos := t.nanos_lt
      have hwhole : ((1 : Int) * 1000000).tdiv 1000000000 = 0 := by decide
      have hrest : ((1 : Int) * 1000000).tmod 1000000000 = 1000000 := by decide
      rw [addMillis?, addNanos?, cast_giga, hwhole, hrest] at hstep
      show t.rank ≤ s.rank
      simp only [rank]
      split at hstep
      · obtain ⟨hdist, hlow⟩ := nanosOfEpoch_ofCarried? (by omega) hstep
        simp only [nanosOfEpoch] at hdist
        omega
      · split at hstep
        · -- out of the leap second into the next second
          obtain ⟨hdist, hlow⟩ := nanosOfEpoch_ofCarried? (by omega) hstep
          simp only [nanosOfEpoch] at hdist
          omega
        · rw [if_neg (by decide)] at hstep
          obtain ⟨hs, hn⟩ := ofParts?_eq_some hstep
          omega

end Backfill.Timestamp
