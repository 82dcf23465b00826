import Backfill.Coverage
import Backfill.Proofs.Range.Exclude

/-!
# What a set of outcomes does to coverage

The values of succeeded ranges join the covered ones and leave those to retry; the values of failed
ranges are to be retried. Both lists come out merged, so they depend on nothing but these values.
-/

namespace Backfill

namespace Coverage

variable {α : Type} [Axis α]

/-- The ranges that succeeded. -/
def succeeded (outcomes : List (Range α × Bool)) : List (Range α) := (outcomes.filter (·.2)).map (·.1)

/-- The ranges that failed. -/
def failed (outcomes : List (Range α × Bool)) : List (Range α) := (outcomes.filter (!·.2)).map (·.1)

theorem merged_covered_update (c : Coverage α) (outcomes : List (Range α × Bool)) (now : Timestamp) :
    Range.Merged (c.update outcomes now).covered := Range.merged_merge _

theorem merged_toRetry_update (c : Coverage α) (outcomes : List (Range α × Bool)) (now : Timestamp) :
    Range.Merged (c.update outcomes now).toRetry := Range.merged_merge _

variable [DiscreteAxis α] (c : Coverage α) (outcomes : List (Range α × Bool)) (now : Timestamp)

theorem covered_update :
    (c.update outcomes now).covered = Range.merge (c.covered ++ succeeded outcomes) := by
  simp only [update, Range.merge_eq_iff, Range.values_append, Range.values_merge]
  rfl

theorem values_covered_update : Range.values (c.update outcomes now).covered =
    Range.values c.covered ∪ Range.values (succeeded outcomes) := by
  rw [covered_update, Range.values_merge, Range.values_append]

theorem values_toRetry_update : Range.values (c.update outcomes now).toRetry =
    (Range.values c.toRetry \ Range.values (succeeded outcomes)) ∪ Range.values (failed outcomes) := by
  simp only [update, Range.values_append, Range.values_merge, Range.values_exclude]
  rfl

/-! ## The same outcomes once more -/

theorem covered_update_again (later : Timestamp) :
    ((c.update outcomes now).update outcomes later).covered = (c.update outcomes now).covered := by
  refine (merged_covered_update _ _ _).ext (merged_covered_update _ _ _) ?_
  rw [values_covered_update, values_covered_update, Set.union_assoc, Set.union_self]

theorem toRetry_update_again (later : Timestamp) :
    ((c.update outcomes now).update outcomes later).toRetry = (c.update outcomes now).toRetry := by
  refine (merged_toRetry_update _ _ _).ext (merged_toRetry_update _ _ _) ?_
  rw [values_toRetry_update, values_toRetry_update]
  -- what failed is put back after the successes have taken it off
  ext x
  simp only [Set.mem_union, Set.mem_sdiff]
  tauto

end Coverage

/-- A set of outcomes covers the blocks that succeeded besides those covered before, and leaves to retry those
that failed besides what it does not settle of those to retry before. Both lists come out merged, so that a missing
block lies between neighbours. Every block that was recorded or attempted is recorded in one of them, and the same
outcomes once more change neither. -/
theorem Coverage.update_exact (c : Coverage UInt64) (outcomes : List (Range UInt64 × Bool)) (now : Timestamp) :
    let after := c.update outcomes now
    Range.values after.covered = Range.values c.covered ∪ Range.values (succeeded outcomes) ∧
    Range.values after.toRetry =
      (Range.values c.toRetry \ Range.values (succeeded outcomes)) ∪ Range.values (failed outcomes) ∧
    (∀ ranges ∈ [after.covered, after.toRetry], Range.Merged ranges ∧
      ∀ older r s newer, ranges = older ++ r :: s :: newer →
        ∃ x, r.last < x ∧ x < s.first ∧ x ∉ Range.values ranges) ∧
    Range.values after.covered ∪ Range.values after.toRetry =
      Range.values c.covered ∪ Range.values c.toRetry ∪
        (Range.values (succeeded outcomes) ∪ Range.values (failed outcomes)) ∧
    ∀ later, (after.update outcomes later).covered = after.covered ∧
      (after.update outcomes later).toRetry = after.toRetry := by
  intro after
  have hcovered : Range.values after.covered = _ := values_covered_update c outcomes now
  have hretry : Range.values after.toRetry = _ := values_toRetry_update c outcomes now
  refine ⟨hcovered, hretry, ?_, ?_, fun later => ⟨?_, ?_⟩⟩
  · intro ranges hranges
    have hmerged : Range.Merged ranges := by
      simp only [List.mem_cons, List.not_mem_nil, or_false] at hranges
      rcases hranges with rfl | rfl
      · exact merged_covered_update c outcomes now
      · exact merged_toRetry_update c outcomes now
    refine ⟨hmerged, ?_⟩
    rintro older r s newer rfl
    obtain ⟨x, hr, hs, hx⟩ := hmerged.exists_between
    simp only [rank_word, Int.ofNat_lt] at hr hs
    exact ⟨x, UInt64.lt_iff_toNat_lt.2 hr, UInt64.lt_iff_toNat_lt.2 hs, hx⟩
  · rw [hcovered, hretry]
    ext x
    simp only [Set.mem_union, Set.mem_sdiff]
    tauto
  · exact covered_update_again c outcomes now later
  · exact toRetry_update_again c outcomes now later

/-! ## Outcomes of one key -/

namespace Outcome

variable {α : Type}

/-- The ranges that succeeded for a key. -/
def succeededFor (key : String) (outcomes : List (Outcome α)) : List (Range α) :=
  (outcomes.filter fun o => o.importKey == key && o.success).map (·.range)

/-- The ranges that failed for a key. -/
def failedFor (key : String) (outcomes : List (Outcome α)) : List (Range α) :=
  (outcomes.filter fun o => o.importKey == key && !o.success).map (·.range)

/-- What a merge under a key sees of some outcomes. -/
def own (key : String) (outcomes : List (Outcome α)) : List (Range α × Bool) :=
  (outcomes.filter (·.importKey == key)).map fun o => (o.range, o.success)

theorem succeededFor_append (key : String) (a b : List (Outcome α)) :
    succeededFor key (a ++ b) = succeededFor key a ++ succeededFor key b := by
  simp [succeededFor]

theorem succeededFor_perm (key : String) {a b : List (Outcome α)} (h : a.Perm b) :
    (succeededFor key a).Perm (succeededFor key b) :=
  (h.filter _).map _

theorem mem_succeededFor {key : String} {outcomes : List (Outcome α)} {r : Range α} :
    r ∈ succeededFor key outcomes ↔ (⟨key, r, true⟩ : Outcome α) ∈ outcomes := by
  simp only [succeededFor, List.mem_map, List.mem_filter, Bool.and_eq_true, beq_iff_eq]
  constructor
  · rintro ⟨⟨k, s, ok⟩, ⟨ho, rfl, rfl⟩, rfl⟩
    exact ho
  · exact fun ho => ⟨_, ⟨ho, rfl, rfl⟩, rfl⟩

theorem mem_values_succeededFor_flatMap {β : Type} [Axis α] {key : String} {f : β → List (Outcome α)} {xs : List β}
    {v : α} : v ∈ Range.values (succeededFor key (xs.flatMap f)) ↔
      ∃ x ∈ xs, v ∈ Range.values (succeededFor key (f x)) := by
  simp only [Range.mem_values, mem_succeededFor, List.mem_flatMap]
  constructor
  · rintro ⟨r, ⟨x, hx, hr⟩, hv⟩
    exact ⟨x, hx, r, hr, hv⟩
  · rintro ⟨x, hx, r, hr, hv⟩
    exact ⟨r, ⟨x, hx, hr⟩, hv⟩

theorem succeeded_own (key : String) (outcomes : List (Outcome α)) :
    Coverage.succeeded (own key outcomes) = succeededFor key outcomes := by
  simp only [Coverage.succeeded, own, succeededFor, List.filter_map, List.map_map, List.filter_filter]
  rw [List.filter_congr (q := fun o => o.importKey == key && o.success)]
  · rfl
  · intro o _
    exact Bool.and_comm _ _

theorem failed_own (key : String) (outcomes : List (Outcome α)) :
    Coverage.failed (own key outcomes) = failedFor key outcomes := by
  simp only [Coverage.failed, own, failedFor, List.filter_map, List.map_map, List.filter_filter]
  rw [List.filter_congr (q := fun o => o.importKey == key && !o.success)]
  · rfl
  · intro o _
    exact Bool.and_comm _ _

end Outcome

end Backfill
