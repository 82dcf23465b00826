import Backfill.Store
import Backfill.Proofs.Coverage

/-!
# Stored coverage

A merge of block outcomes succeeds exactly on states that record blocks; it then adds the succeeded ranges
of the state's own key to its coverage and changes nothing else.
-/

namespace Backfill

/-! ## States -/

namespace ImportState

/-- The state is of one of the product feeds, which record ranges of blocks. -/
def RecordsBlocks (s : ImportState) : Prop := ∃ feed data, s.data = .product feed data

/-- The ranges of blocks that the state holds as covered. -/
def covered (s : ImportState) : List (Range UInt64) := (StoredAxis.coverage? (α := UInt64) s.data).elim [] (·.covered)

/-- The ranges of blocks that the state holds for another try. -/
def toRetry (s : ImportState) : List (Range UInt64) := (StoredAxis.coverage? (α := UInt64) s.data).elim [] (·.toRetry)

/-- The block from which on the contract of the state exists. -/
def createdAt? (s : ImportState) : Option UInt64 := s.data.product?.map (·.createdAtBlock)

theorem apply_product (key : String) (feed : ProductFeed) (data : ProductData) (outcomes : List (Outcome UInt64))
    (now : Timestamp) : (⟨key, .product feed data⟩ : ImportState).apply outcomes now =
      .ok ⟨key, .product feed { data with ranges := data.ranges.update (Outcome.own key outcomes) now }⟩ := rfl

/-- How a state follows on another one into which outcomes were merged. -/
structure Follows (s : ImportState) (outcomes : List (Outcome UInt64)) (s' : ImportState) : Prop where
  importKey : s'.importKey = s.importKey
  recordsBlocks : s'.RecordsBlocks
  createdAt : s'.createdAt? = s.createdAt?
  covered : s'.covered = Range.merge (s.covered ++ Outcome.succeededFor s.importKey outcomes)
  toRetry : Range.values s'.toRetry =
    (Range.values s.toRetry \ Range.values (Outcome.succeededFor s.importKey outcomes)) ∪
      Range.values (Outcome.failedFor s.importKey outcomes)

theorem apply_eq_ok {s s' : ImportState} {outcomes : List (Outcome UInt64)} {now : Timestamp}
    (h : s.apply outcomes now = .ok s') : s.RecordsBlocks ∧ s.Follows outcomes s' := by
  obtain ⟨key, data⟩ := s
  cases data with
  | product feed data =>
      rw [apply_product, Except.ok.injEq] at h
      subst h
      refine ⟨⟨feed, data, rfl⟩, ⟨rfl, ⟨feed, _, rfl⟩, rfl, ?_, ?_⟩⟩
      · rw [← Outcome.succeeded_own]
        exact Coverage.covered_update data.ranges _ now
      · rw [← Outcome.succeeded_own, ← Outcome.failed_own]
        exact Coverage.values_toRetry_update data.ranges _ now
  | priceFeed data => cases h

end ImportState

/-! ## Stores -/

namespace Store

/-- The ranges of blocks that are stored as covered under a key. -/
def covered (s : Store) (key : String) : List (Range UInt64) := (s.get? key).elim [] (·.covered)

/-- The ranges of blocks that are stored for another try under a key. -/
def toRetry (s : Store) (key : String) : List (Range UInt64) := (s.get? key).elim [] (·.toRetry)

theorem toRetry_of_get? {s : Store} {key : String} {state : ImportState} (h : s.get? key = some state) :
    s.toRetry key = state.toRetry := by
  simp [toRetry, h]

theorem covered_of_get? {s : Store} {key : String} {state : ImportState} (h : s.get? key = some state) :
    s.covered key = state.covered := by
  simp [covered, h]

theorem covered_congr {s s' : Store} {key : String} (h : s.get? key = s'.get? key) :
    s.covered key = s'.covered key := by
  simp [covered, h]

theorem get?_createIfMissing (s : Store) (state : ImportState) (key : String) :
    (s.createIfMissing state).2.get? key =
      (s.get? key).or (if key = state.importKey then some state else none) := by
  unfold createIfMissing
  split
  · rename_i known h
    by_cases hk : key = state.importKey
    · simp [hk, h]
    · simp [hk]
  · rename_i h
    simp only [put, Keyed.get?_set]
    by_cases hk : key = state.importKey
    · simp [hk, h]
    · simp [hk]

theorem merge_of_get? {s : Store} {key : String} {state : ImportState} (h : s.get? key = some state)
    (outcomes : List (Outcome UInt64)) (now : Timestamp) :
    s.merge key outcomes now = match state.apply outcomes now with
      | .error e => .error (.mergeRejected e)
      | .ok merged => .ok (merged, s.set key merged) := by
  cases happly : state.apply outcomes now <;> simp [merge, h, happly]

theorem merge_isOk_iff {s : Store} {key : String} {outcomes : List (Outcome UInt64)} {now : Timestamp} :
    (s.merge key outcomes now).isOk = true ↔ ∃ state, s.get? key = some state ∧ state.RecordsBlocks := by
  constructor
  · intro h
    cases hs : s.get? key with
    | none => simp [merge, hs, Except.isOk, Except.toBool] at h
    | some state =>
        rw [merge_of_get? hs] at h
        cases ha : state.apply outcomes now with
        | error e => simp [ha, Except.isOk, Except.toBool] at h
        | ok merged => exact ⟨state, rfl, (ImportState.apply_eq_ok ha).1⟩
  · rintro ⟨⟨k, data⟩, hs, feed, data, rfl⟩
    rw [merge_of_get? hs, ImportState.apply_product]
    rfl

theorem merge_eq_ok {s : Store} {key : String} {outcomes : List (Outcome UInt64)} {now : Timestamp}
    {p : ImportState × Store} (h : s.merge key outcomes now = .ok p) :
    ∃ state, s.get? key = some state ∧ state.apply outcomes now = .ok p.1 ∧ p.2 = s.set key p.1 := by
  cases hs : s.get? key with
  | none => simp [merge, hs] at h
  | some state =>
      rw [merge_of_get? hs] at h
      cases ha : state.apply outcomes now with
      | error e => simp [ha] at h
      | ok m =>
          rw [ha] at h
          cases h
          exact ⟨state, rfl, ha, rfl⟩

theorem get?_afterMerge_of_ne {s : Store} {key other : String} (h : other ≠ key)
    (outcomes : List (Outcome UInt64)) (now : Timestamp) :
    (s.afterMerge (s.merge key outcomes now)).get? other = s.get? other := by
  cases hm : s.merge key outcomes now with
  | error e => rfl
  | ok p =>
      obtain ⟨state, _, _, hset⟩ := merge_eq_ok hm
      simp only [afterMerge, hset, Keyed.get?_set, h, if_false]

/-- Every state stands under its own key. -/
def Filed (s : Store) : Prop := ∀ key state, s.get? key = some state → state.importKey = key

theorem Filed.createIfMissing {s : Store} (h : s.Filed) (state : ImportState) :
    (s.createIfMissing state).2.Filed := by
  intro key found hf
  rw [get?_createIfMissing, Option.or_eq_some_iff] at hf
  rcases hf with hf | ⟨_, hf⟩
  · exact h key found hf
  · split at hf
    · rename_i hk
      cases hf
      exact hk.symm
    · cases hf

theorem Filed.afterMerge {s : Store} (h : s.Filed) (key : String) (outcomes : List (Outcome UInt64))
    (now : Timestamp) : (s.afterMerge (s.merge key outcomes now)).Filed := by
  cases hm : s.merge key outcomes now with
  | error e => exact h
  | ok p =>
      obtain ⟨state, hs, ha, hset⟩ := merge_eq_ok hm
      intro other found hf
      rw [Store.afterMerge, hset, Keyed.get?_set] at hf
      split at hf
      · rename_i ho
        cases hf
        rw [(ImportState.apply_eq_ok ha).2.importKey, ho]
        exact h key state hs
      · exact h other found hf

end Store

end Backfill
