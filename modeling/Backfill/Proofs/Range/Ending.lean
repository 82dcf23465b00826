import Backfill.Proofs.Range.Pieces
import Backfill.Proofs.Timestamp.Ahead

/-!
# When cutting timestamps comes to an end

Every piece of two milliseconds or more brings the next one closer to the end of the calendar. Pieces of one
millisecond begin a millisecond apart as long as the calendar reaches; in its last millisecond the next one begins where
the present one does, so that cutting goes on forever unless a piece begins at the end of the range or after it.
-/

namespace Backfill.Range

open Timestamp (latest Later)

variable {length : Nat} {last start later : Timestamp}

/-! ## Pieces of two milliseconds and more -/

theorem reading_nextStart (hl : 2 ≤ length) (hlast : Axis.rank last ≤ Axis.rank latest)
    (h : nextStart? length last start = some later) : start.reading + 1000000 ≤ later.reading := by
  obtain ⟨hlt, hnext⟩ := nextStart?_eq_some_iff.1 h
  rw [last_pieceAt_of_lt hlt] at hnext
  -- what is cut off at the end of the calendar is cut off at `last`
  have hroom : start.reading + (min (length - 1) maxSigned : Nat) * 1000000 ≤ latest.reading := by
    by_contra hover
    rw [Timestamp.advance_of_lt (Int.not_le.1 hover)] at hlt
    omega
  have hpiece := (Timestamp.advance_of_le hroom).reading_eq
  have hsteps : 1 ≤ min (length - 1) maxSigned := by
    unfold maxSigned
    omega
  by_cases hstep : (Axis.advance start (length - 1)).reading + 1000000 ≤ latest.reading
  · have hreading := (Timestamp.next_of_le hstep).reading_eq
    rw [hnext] at hreading
    omega
  · rw [Timestamp.next_of_lt (Int.not_le.1 hstep)] at hnext
    rw [← hnext]
    omega

theorem exists_cuts_of_two_le (hl : 2 ≤ length) (hlast : Axis.rank last ≤ Axis.rank latest) (start : Timestamp) :
    ∃ pieces, Cuts length last start pieces := by
  generalize hn : (latest.reading - start.reading).toNat = n
  induction n using Nat.strongRecOn generalizing start with
  | ind n ih =>
      cases h : nextStart? length last start with
      | none => exact ⟨_, .done h⟩
      | some later =>
          have hcloser := reading_nextStart hl hlast h
          have hin := later.reading_le_latest
          obtain ⟨pieces, hpieces⟩ := ih _ (by omega) later rfl
          exact ⟨_, .more h hpieces⟩

/-! ## Pieces of one millisecond -/

theorem nextStart?_one_eq_none_iff : nextStart? 1 last start = none ↔ Axis.rank last ≤ Axis.rank start := by
  rw [nextStart?_eq_none_iff, Nat.sub_self, Timestamp.advance_zero]

theorem nextStart?_one_eq_some_iff :
    nextStart? 1 last start = some later ↔ Axis.rank start < Axis.rank last ∧ Axis.next start = later := by
  have hend : Axis.rank start < Axis.rank last → (pieceAt 1 last start).last = start := by
    intro hlt
    rw [last_pieceAt_of_lt] <;> rw [Nat.sub_self, Timestamp.advance_zero]
    exact hlt
  rw [nextStart?_eq_some_iff, Nat.sub_self, Timestamp.advance_zero]
  refine and_congr_right fun hlt => ?_
  rw [hend hlt]

theorem exists_cuts_one_of_le (hlast : Axis.rank last ≤ Axis.rank latest) (hstart : Axis.rank start ≤ Axis.rank latest)
    (h : (latest.reading - start.reading) % 1000000 ≤ latest.reading - last.reading) :
    ∃ pieces, Cuts 1 last start pieces := by
  generalize hn : (latest.reading - start.reading).toNat = n
  induction n using Nat.strongRecOn generalizing start with
  | ind n ih =>
      have hin := start.reading_le_latest
      cases hnext : nextStart? 1 last start with
      | none => exact ⟨_, .done hnext⟩
      | some later =>
          obtain ⟨hlt, hlater⟩ := nextStart?_one_eq_some_iff.1 hnext
          by_cases hstep : start.reading + 1000000 ≤ latest.reading
          · have hmove : Later start later 1000000 := hlater ▸ Timestamp.next_of_le hstep
            have hreading := hmove.reading_eq
            have hin' := later.reading_le_latest
            obtain ⟨pieces, hpieces⟩ := ih _ (by omega) (hmove.rank_le_latest hstart) (by omega) rfl
            exact ⟨_, .more hnext hpieces⟩
          · -- the remainder is all that is left, so `last` is not later than `start`
            have hclock := (Timestamp.rank_le_iff_of_near hstart hlast (by omega)).2
            exact absurd (hclock.2 (by omega)) (Int.not_le.2 hlt)

theorem le_of_cuts_one {pieces : List (Range Timestamp)} (hlast : Axis.rank last ≤ Axis.rank latest)
    (hstart : Axis.rank start ≤ Axis.rank latest) (h : Cuts 1 last start pieces) :
    (latest.reading - start.reading) % 1000000 ≤ latest.reading - last.reading := by
  induction h with
  | @done start hnext =>
      have hle := nextStart?_one_eq_none_iff.1 hnext
      have hin := start.reading_le_latest
      by_cases hnear : latest.reading < last.reading + 1000000
      · have hreading := (Timestamp.rank_le_iff_of_near hlast hstart hnear).1.1 hle
        omega
      · omega
  | @more start later pieces hnext _ ih =>
      obtain ⟨-, hlater⟩ := nextStart?_one_eq_some_iff.1 hnext
      by_cases hstep : start.reading + 1000000 ≤ latest.reading
      · have hmove : Later start later 1000000 := hlater ▸ Timestamp.next_of_le hstep
        have hreading := hmove.reading_eq
        have hrest := ih (hmove.rank_le_latest hstart)
        omega
      · rw [Timestamp.next_of_lt (Int.not_le.1 hstep)] at hlater
        rw [hlater]
        exact ih (hlater ▸ hstart)

/-! ## Any pieces -/

theorem exists_cuts_iff (hlast : Axis.rank last ≤ Axis.rank latest) (hstart : Axis.rank start ≤ Axis.rank latest) :
    (∃ pieces, Cuts (max length 1) last start pieces) ↔
      2 ≤ length ∨ (latest.reading - start.reading) % 1000000 ≤ latest.reading - last.reading := by
  by_cases hl : 2 ≤ length
  · have hlong : 2 ≤ max length 1 := by omega
    exact iff_of_true (exists_cuts_of_two_le hlong hlast start) (Or.inl hl)
  · have hone : max length 1 = 1 := by omega
    rw [hone]
    constructor
    · rintro ⟨pieces, hpieces⟩
      exact Or.inr (le_of_cuts_one hlast hstart hpieces)
    · intro h
      exact exists_cuts_one_of_le hlast hstart (h.resolve_left hl)

/-- Splitting a range that ends in the calendar comes to an end exactly if the range is inverted, or its pieces are two
milliseconds or longer, or as many whole milliseconds after its first instant as the calendar has room for lie no
earlier than its last instant. When it does, the pieces are those of the cutting. -/
theorem splitting_ends_iff (r : Range Timestamp) (length : Nat) (hlast : r.last ≤ latest) :
    (SplitEnds r length ↔ r.valid = false ∨ 2 ≤ length ∨
      (latest.reading - r.first.reading) % 1000000 ≤ latest.reading - r.last.reading) ∧
    (SplitEnds r length → r.valid = true → Cuts (max length 1) r.last r.first (split r length)) := by
  have hlast : Axis.rank r.last ≤ Axis.rank latest := (Axis.le_iff_rank _ _).1 hlast
  refine ⟨?_, SplitEnds.cuts⟩
  cases hv : r.valid with
  | false => exact iff_of_true (fun h => by rw [hv] at h; cases h) (Or.inl rfl)
  | true =>
      have hfirst : Axis.rank r.first ≤ Axis.rank latest := Int.le_trans (valid_iff_rank.1 hv) hlast
      rw [SplitEnds, hv, exists_cuts_iff hlast hfirst]
      simp

/-- So many nanoseconds before the latest instant. -/
def beforeLatest (nanos : Nat) : Timestamp :=
  { latest with
    nanos := latest.nanos - nanos
    nanos_lt := Nat.lt_of_le_of_lt (Nat.sub_le ..) latest.nanos_lt }

theorem splitting_ends_iff_lastInstants :
    (⟨beforeLatest 1000000, latest⟩ : Range Timestamp).last ≤ latest ∧
      SplitEnds ⟨beforeLatest 1000000, latest⟩ 1 ∧ ¬ SplitEnds ⟨beforeLatest 500000, latest⟩ 1 := by
  have hlast : latest ≤ latest := by decide
  have hends := (splitting_ends_iff ⟨beforeLatest 1000000, latest⟩ 1 hlast).1
  have hstuck := (splitting_ends_iff ⟨beforeLatest 500000, latest⟩ 1 hlast).1
  refine ⟨hlast, hends.2 (Or.inr (Or.inr (by decide))), fun h => ?_⟩
  exact absurd (hstuck.1 h) (by decide)

/-- In the last nanosecond of the calendar a step leads nowhere, and cutting never ends. -/
theorem splitting_last_nanosecond_never_ends :
    (⟨beforeLatest 1, latest⟩ : Range Timestamp).valid = true ∧ latest ≤ latest ∧
      ¬ SplitEnds ⟨beforeLatest 1, latest⟩ 1 := by
  have hrank : Axis.rank (beforeLatest 1) ≤ Axis.rank latest := by decide
  refine ⟨by decide, by decide, fun h => ?_⟩
  obtain ⟨pieces, hpieces⟩ := h (by decide)
  exact absurd (le_of_cuts_one (Int.le_refl _) hrank hpieces) (by decide)

end Backfill.Range
