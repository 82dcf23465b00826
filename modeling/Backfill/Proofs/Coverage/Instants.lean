import Backfill.Proofs.Coverage.Flushes
import Backfill.Proofs.Range.Beside
import Backfill.Proofs.Timestamp

/-!
# Instants to be retried

Timestamps are finer than the millisecond by which their axis steps. A success takes its own range off the list to be
retried, and with it the instants less than a step away from its ends. Nothing else is ever lost, so nothing at all is
where all bounds are whole milliseconds apart.
-/

namespace Backfill.Coverage

open Range (values)

section Axes

variable {α : Type} [Axis α]

theorem covered_subset_update (c : Coverage α) (outcomes : List (Range α × Bool)) (now : Timestamp) :
    values c.covered ⊆ values (c.update outcomes now).covered := by
  refine Set.Subset.trans ?_ (Range.values_subset_merge _)
  rw [Range.values_append]
  exact Set.subset_union_left

variable (hnext : ∀ a : α, Axis.rank a ≤ Axis.rank (Axis.next a))
include hnext

/-- What is to be retried stays so or is covered, except beside a success. -/
theorem retried_or_beside_update (c : Coverage α) (outcomes : List (Range α × Bool)) (now : Timestamp) {x : α}
    (hx : x ∈ values c.toRetry) :
    x ∈ values (c.update outcomes now).toRetry ∨ x ∈ values (c.update outcomes now).covered ∨
      ∃ s ∈ succeeded outcomes, s.valid = true ∧ s.Beside x := by
  rcases Range.mem_exclude_or_beside (Range.merge (succeeded outcomes)) hx with
    hkept | hsucceeded | ⟨hole, hhole, -, hbeside⟩
  · left
    refine Range.values_subset_merge _ ?_
    rw [Range.values_append]
    exact Or.inl hkept
  · right; left
    rw [(Range.merged_merge _).merge_eq_of_next hnext] at hsucceeded
    refine Range.values_subset_merge _ ?_
    rw [Range.values_append]
    exact Or.inr hsucceeded
  · exact Or.inr (Or.inr (Range.exists_beside_of_merge hhole hbeside))

theorem retried_or_beside_updateAll (flushes : List (Flush α)) (c : Coverage α) {x : α}
    (hx : x ∈ values c.toRetry ∨ x ∈ values c.covered) :
    x ∈ values (c.updateAll flushes).toRetry ∨ x ∈ values (c.updateAll flushes).covered ∨
      ∃ f ∈ flushes, ∃ s ∈ succeeded f.outcomes, s.valid = true ∧ s.Beside x := by
  induction flushes generalizing c with
  | nil => exact hx.imp_right Or.inl
  | cons f rest ih =>
      rw [updateAll_cons]
      have hstep : (x ∈ values (c.update f.outcomes f.now).toRetry ∨ x ∈ values (c.update f.outcomes f.now).covered) ∨
          ∃ s ∈ succeeded f.outcomes, s.valid = true ∧ s.Beside x := by
        rcases hx with hx | hx
        · exact or_assoc.2 (retried_or_beside_update hnext c f.outcomes f.now hx)
        · exact Or.inl (Or.inr (covered_subset_update c f.outcomes f.now hx))
      rcases hstep with hx | hbeside
      · refine (ih _ hx).imp_right (Or.imp_right ?_)
        rintro ⟨g, hg, hbeside⟩
        exact ⟨g, List.mem_cons_of_mem f hg, hbeside⟩
      · exact Or.inr (Or.inr ⟨f, List.mem_cons_self, hbeside⟩)

end Axes

/-! ## Timestamps -/

/-- Less than a millisecond before the range or after it. -/
def Brushes (s : Range Timestamp) (x : Timestamp) : Prop :=
  (s.first.nanosOfEpoch - 1000000 < x.nanosOfEpoch ∧ x.nanosOfEpoch < s.first.nanosOfEpoch) ∨
    (s.last.nanosOfEpoch < x.nanosOfEpoch ∧ x.nanosOfEpoch < s.last.nanosOfEpoch + 1000000)

/-- A whole number of milliseconds apart. -/
def WholeMillis (a b : Timestamp) : Prop := (1000000 : Int) ∣ b.nanosOfEpoch - a.nanosOfEpoch

theorem brushes_of_beside {s : Range Timestamp} {x : Timestamp} (hfirst : s.first.Plain) (hlast : s.last.Plain)
    (hx : x.nanos < 1000000000) (h : s.Beside x) : Brushes s x := by
  obtain ⟨hprev, hprevlow⟩ := hfirst.prev
  obtain ⟨hnext, hnextlow⟩ := hlast.next
  rcases h with ⟨hbefore, hafter⟩ | ⟨hbefore, hafter⟩
  · have hbefore := (Timestamp.rank_lt_iff hprevlow hx).1 hbefore
    have hafter := (Timestamp.rank_lt_iff hx hfirst.nanos_lt).1 hafter
    exact Or.inl ⟨by omega, hafter⟩
  · have hbefore := (Timestamp.rank_lt_iff hlast.nanos_lt hx).1 hbefore
    have hafter := (Timestamp.rank_lt_iff hx hnextlow).1 hafter
    exact Or.inr ⟨hbefore, by omega⟩

theorem not_brushes_of_whole {a x : Timestamp} {s : Range Timestamp} (hx : WholeMillis a x)
    (hfirst : WholeMillis a s.first) (hlast : WholeMillis a s.last) : ¬ Brushes s x := by
  unfold WholeMillis at hx hfirst hlast
  unfold Brushes
  omega

/-- After a set of outcomes all that was covered is covered. An instant to be retried is still to be retried or is
covered, unless it lies less than a millisecond before or after a range that succeeded: no such instant is a whole
number of milliseconds after the start of its range, when the bounds of all that succeeded are. -/
theorem retried_instants_stay (c : Coverage Timestamp) (outcomes : List (Range Timestamp × Bool)) (now : Timestamp)
    (hplain : ∀ o ∈ outcomes, o.1.first.Plain ∧ o.1.last.Plain) :
    let after := c.update outcomes now
    values c.covered ⊆ values after.covered ∧
    ∀ r ∈ c.toRetry, ∀ x ∈ r, x.nanos < 1000000000 →
      (x ∈ values after.toRetry ∨ x ∈ values after.covered ∨
        ∃ s, (s, true) ∈ outcomes ∧ s.valid = true ∧ Brushes s x) ∧
      (WholeMillis r.first x →
        (∀ s, (s, true) ∈ outcomes → s.valid = true → WholeMillis r.first s.first ∧ WholeMillis r.first s.last) →
        x ∈ values after.toRetry ∨ x ∈ values after.covered) := by
  intro after
  refine ⟨covered_subset_update c outcomes now, fun r hr x hx hlow => ?_⟩
  have hstays : x ∈ values after.toRetry ∨ x ∈ values after.covered ∨
      ∃ s, (s, true) ∈ outcomes ∧ s.valid = true ∧ Brushes s x := by
    refine (retried_or_beside_update Timestamp.rank_le_next c outcomes now ⟨r, hr, hx⟩).imp_right (Or.imp_right ?_)
    rintro ⟨s, hs, hvalid, hbeside⟩
    have hmem : (s, true) ∈ outcomes := by simpa [succeeded] using hs
    obtain ⟨hfirst, hlast⟩ := hplain _ hmem
    exact ⟨s, hmem, hvalid, brushes_of_beside hfirst hlast hlow hbeside⟩
  refine ⟨hstays, fun hwhole hgrid => ?_⟩
  rcases hstays with hretry | hcovered | ⟨s, hs, hvalid, hbrushes⟩
  · exact Or.inl hretry
  · exact Or.inr hcovered
  · obtain ⟨hfirst, hlast⟩ := hgrid s hs hvalid
    exact absurd hbrushes (not_brushes_of_whole hwhole hfirst hlast)

/-- So many nanoseconds into the year 2024. -/
def intoYear (nanos : Nat) : Timestamp := ⟨1704067200, nanos % 1000000000, by decide, by decide, by omega⟩

def failedStart : Coverage Timestamp := ⟨[], [⟨intoYear 0, intoYear 10000000⟩], Timestamp.epoch⟩

theorem retried_instants_stay_wholeMillis :
    let after := failedStart.update [(⟨intoYear 5000000, intoYear 7000000⟩, true)] Timestamp.epoch
    intoYear 4000000 ∈ values after.toRetry ∨ intoYear 4000000 ∈ values after.covered := by
  have hplain : ∀ o ∈ [((⟨intoYear 5000000, intoYear 7000000⟩ : Range Timestamp), true)],
      o.1.first.Plain ∧ o.1.last.Plain := by decide
  obtain ⟨-, hstays⟩ := retried_instants_stay failedStart _ Timestamp.epoch hplain
  refine (hstays _ List.mem_cons_self (intoYear 4000000) (by decide) (by decide)).2 ⟨4, by decide⟩ ?_
  intro s hs _
  obtain rfl : s = ⟨intoYear 5000000, intoYear 7000000⟩ := by simpa using hs
  exact ⟨⟨5, by decide⟩, ⟨7, by decide⟩⟩

/-- Five milliseconds in, 0.3 of one before a success begins, an instant is to be retried, and then it is nowhere. -/
theorem success_drops_instant_before :
    let outcomes : List (Range Timestamp × Bool) := [(⟨intoYear 5300000, intoYear 12000000⟩, true)]
    let after := failedStart.update outcomes Timestamp.epoch
    (∀ r ∈ failedStart.toRetry ++ outcomes.map (·.1), r.valid = true ∧ r.first.Plain ∧ r.last.Plain) ∧
      intoYear 5000000 ∈ values failedStart.toRetry ∧ WholeMillis (intoYear 0) (intoYear 5000000) ∧
      intoYear 5000000 ∉ values after.toRetry ∧ intoYear 5000000 ∉ values after.covered :=
  ⟨by decide, by decide, ⟨5, by decide⟩, by decide +kernel, by decide +kernel⟩

end Backfill.Coverage
