import Backfill.Proofs.Timestamp.Ahead

/-!
# Grids of timestamps

The points a whole number of steps after a first one. Stepping from one of them to the next keeps to the grid and leaves
none out, in leap seconds as well, until the calendar has no room for another step.
-/

namespace Backfill.Timestamp

variable {start next t : Timestamp} {step : Nat}

/-- A whole number of steps after `start`. -/
def OnGrid (start : Timestamp) (step : Nat) (t : Timestamp) : Prop :=
  ∃ count : Nat, start.addNanos? (count * step : Nat) = some t

theorem onGrid_iff : OnGrid start step t ↔ ∃ count : Nat, Later start t (count * step : Nat) :=
  exists_congr fun _ => addNanos?_eq_some_iff (by omega)

theorem onGrid_self (start : Timestamp) (step : Nat) : OnGrid start step start := by
  refine ⟨0, ?_⟩
  rw [Nat.zero_mul]
  exact addMillis?_zero start

theorem OnGrid.rank_le (h : OnGrid start step t) : start.rank ≤ t.rank := by
  obtain ⟨count, hcount⟩ := onGrid_iff.1 h
  have := hcount.rank_add_le
  omega

theorem rank_lt_of_step (hstep : 0 < step) (h : start.addNanos? step = some next) : start.rank < next.rank := by
  have := (later_of_addNanos? (by omega) h).rank_add_le
  omega

/-- The points on the grid are the first one and those from the second one on. -/
theorem onGrid_iff_of_step (h : start.addNanos? step = some next) :
    OnGrid start step t ↔ t = start ∨ OnGrid next step t := by
  have hnext : Later start next step := later_of_addNanos? (by omega) h
  have hsucc : ∀ count : Nat, ((count + 1) * step : Nat) = (step : Int) + (count * step : Nat) := by
    intro count
    rw [Nat.succ_mul, Int.natCast_add, Int.add_comm]
  constructor
  · rintro ⟨count, hcount⟩
    cases count with
    | zero =>
        rw [Nat.zero_mul] at hcount
        exact Or.inl (Option.some.inj (hcount.symm.trans (addMillis?_zero start)))
    | succ count =>
        have ht := later_of_addNanos? (by omega) hcount
        rw [hsucc] at ht
        have hroom : next.reading + (count * step : Nat) ≤ latest.reading := by
          rw [hnext.reading_eq, Int.add_assoc, ← ht.reading_eq]
          exact t.reading_le_latest
        obtain ⟨u, hu⟩ := exists_addNanos? (by omega) hroom
        have hlater := hnext.trans (later_of_addNanos? (by omega) hu)
        exact Or.inr ⟨count, by rw [hu, ht.unique hlater]⟩
  · rintro (rfl | hgrid)
    · exact onGrid_self t step
    · obtain ⟨count, hcount⟩ := onGrid_iff.1 hgrid
      refine onGrid_iff.2 ⟨count + 1, ?_⟩
      rw [hsucc]
      exact hnext.trans hcount

/-- No point on the grid before `bound` is the last one in the calendar. -/
def GridReaches (start : Timestamp) (step : Nat) (bound : Timestamp) : Prop :=
  ∀ t, OnGrid start step t → t.rank < bound.rank → ∃ next, t.addNanos? step = some next

/-- A step and a second are room enough: a leap second is at most a second ahead of its reading. -/
theorem gridReaches_of_room {bound : Timestamp} (h : bound.reading + giga + step ≤ latest.reading) :
    GridReaches start step bound := by
  intro t _ ht
  refine exists_addNanos? (by omega) ?_
  have hgiga : (giga : Int) = 1000000000 := cast_giga
  have htnanos := t.nanos_lt
  have hbnanos := bound.nanos_lt
  simp only [rank] at ht
  simp only [reading] at h ⊢
  omega

end Backfill.Timestamp
