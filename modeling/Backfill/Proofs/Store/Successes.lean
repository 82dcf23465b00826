import Backfill.Proofs.Store.Calls

/-!
# Merging successes

Groups of ranges that succeeded, each under one key, may be merged in any order: in the end each state
covers the ranges of its own key as well and retries none of them.
-/

namespace Backfill

open Range (values)

/-- Ranges that succeeded for a key and are merged together. -/
structure SuccessGroup where
  importKey : String
  ranges : List (Range UInt64)
  now : Timestamp

namespace SuccessGroup

def outcomes (g : SuccessGroup) : List (Outcome UInt64) := g.ranges.map fun r => ⟨g.importKey, r, true⟩

def call (g : SuccessGroup) : Store.Call := .merge g.importKey g.outcomes g.now

theorem succeededFor_outcomes_of_ne {g : SuccessGroup} {key : String} (h : g.importKey ≠ key) :
    Outcome.succeededFor key g.outcomes = [] := by
  simp [Outcome.succeededFor, outcomes, List.filter_map, Function.comp_def, h]

theorem failedFor_outcomes (key : String) (g : SuccessGroup) : Outcome.failedFor key g.outcomes = [] := by
  simp [Outcome.failedFor, outcomes, List.filter_map, Function.comp_def]

end SuccessGroup

/-! ## States -/

/-- A state after ranges succeeded: these are covered, none of them is to be retried, and the subject is
the same. -/
structure Advanced (s : ImportState) (done : Set UInt64) (s' : ImportState) : Prop where
  importKey : s'.importKey = s.importKey
  recordsBlocks : s'.RecordsBlocks
  createdAt : s'.createdAt? = s.createdAt?
  covered : values s'.covered = values s.covered ∪ done
  toRetry : values s'.toRetry = values s.toRetry \ done

theorem Advanced.refl {s : ImportState} (h : s.RecordsBlocks) : Advanced s ∅ s :=
  ⟨rfl, h, rfl, (Set.union_empty _).symm, Set.sdiff_empty.symm⟩

theorem Advanced.trans {s s' s'' : ImportState} {a b : Set UInt64} (h : Advanced s a s') (h' : Advanced s' b s'') :
    Advanced s (a ∪ b) s'' where
  importKey := h'.importKey.trans h.importKey
  recordsBlocks := h'.recordsBlocks
  createdAt := h'.createdAt.trans h.createdAt
  covered := by rw [h'.covered, h.covered, Set.union_assoc]
  toRetry := by rw [h'.toRetry, h.toRetry, Set.sdiff_sdiff]

theorem advanced_serve {s : Store} {key : String} {state : ImportState} (h : s.get? key = some state)
    (hkey : state.importKey = key) (hb : state.RecordsBlocks) (g : SuccessGroup) :
    ∃ state', (s.serve g.call).get? key = some state' ∧
      Advanced state (values (Outcome.succeededFor key g.outcomes)) state' := by
  by_cases hg : g.importKey = key
  · subst hg
    obtain ⟨merged, hm⟩ : ∃ merged, state.apply g.outcomes g.now = .ok merged := by
      obtain ⟨k, data⟩ := state
      obtain ⟨feed, data, rfl⟩ := hb
      exact ⟨_, ImportState.apply_product k feed data g.outcomes g.now⟩
    have hfollows := (ImportState.apply_eq_ok hm).2
    refine ⟨merged, ?_, hfollows.importKey, hfollows.recordsBlocks, hfollows.createdAt, ?_, ?_⟩
    · simp only [Store.serve, SuccessGroup.call, Store.merge_of_get? h, hm, Store.afterMerge, Keyed.get?_set_self]
    · rw [hfollows.covered, Range.values_merge, Range.values_append, hkey]
    · rw [hfollows.toRetry, SuccessGroup.failedFor_outcomes, Range.values_nil, Set.union_empty, hkey]
  · refine ⟨state, ?_, ?_⟩
    · exact (Store.get?_afterMerge_of_ne (Ne.symm hg) g.outcomes g.now).trans h
    · rw [SuccessGroup.succeededFor_outcomes_of_ne hg, Range.values_nil]
      exact Advanced.refl hb

theorem advanced_serveAll (groups : List SuccessGroup) {s : Store} {key : String} {state : ImportState}
    (h : s.get? key = some state) (hkey : state.importKey = key) (hb : state.RecordsBlocks) :
    ∃ state', (s.serveAll (groups.map (·.call))).get? key = some state' ∧
      Advanced state (values (Outcome.succeededFor key (groups.flatMap (·.outcomes)))) state' := by
  induction groups generalizing s state with
  | nil =>
      have hnone : values (Outcome.succeededFor key ([] : List (Outcome UInt64))) = ∅ := Range.values_nil
      exact ⟨state, h, by rw [List.flatMap_nil, hnone]; exact Advanced.refl hb⟩
  | cons g groups ih =>
      obtain ⟨state', h', hadv⟩ := advanced_serve h hkey hb g
      obtain ⟨state'', h'', hadv'⟩ := ih h' (hadv.importKey.trans hkey) hadv.recordsBlocks
      refine ⟨state'', h'', ?_⟩
      rw [List.flatMap_cons, Outcome.succeededFor_append, Range.values_append]
      exact hadv.trans hadv'

end Backfill
