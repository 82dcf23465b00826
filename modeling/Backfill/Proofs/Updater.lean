import Backfill.Updater
import Backfill.Proofs.Store

/-!
# Groups and their merges

The updater passes on every outcome it gets, in order and none twice, in groups of one key each. Merging
such groups into a store that records blocks adds the ranges that succeeded to what is covered.
-/

namespace Backfill

/-! ## Groups -/

/-- All outcomes are of one key. -/
def OneKey {α : Type} (group : List (Outcome α)) : Prop :=
  ∀ a ∈ group, ∀ b ∈ group, a.importKey = b.importKey

/-- Groups fit for merging: each has outcomes, all of one key. -/
def Mergeable {α : Type} (groups : List (List (Outcome α))) : Prop := ∀ group ∈ groups, group ≠ [] ∧ OneKey group

/-- The outcomes that an event brings. -/
def UpdaterEvent.outcomes {α : Type} : UpdaterEvent α → List (Outcome α)
  | .outcome o => [o]
  | .deadline => []
  | .closed => []

namespace Updater

variable {α : Type}

theorem flatten_complete (group : List (Outcome α)) : (complete group).flatten = group := by
  cases group with
  | nil => rfl
  | cons o group => simp [complete]

theorem mergeable_complete {group : List (Outcome α)} (h : OneKey group) : Mergeable (complete group) := by
  intro g hg
  cases group with
  | nil => simp [complete] at hg
  | cons o group =>
      simp only [complete, List.isEmpty_cons, Bool.false_eq_true, if_false, List.mem_singleton] at hg
      subst hg
      exact ⟨List.cons_ne_nil _ _, h⟩

theorem collect_cases (limits : GroupLimits) (timer : Nat) (u : Updater α) (o : Outcome α) :
    ((collect limits timer u o).1.group = [] ∧ (collect limits timer u o).2 = complete (u.group ++ [o])) ∨
      ((collect limits timer u o).1.group = u.group ++ [o] ∧ (collect limits timer u o).2 = []) := by
  by_cases hfull : max 1 limits.maxSize ≤ (u.group ++ [o]).length
  · left
    rw [collect, if_pos hfull]
    exact ⟨rfl, rfl⟩
  · right
    rw [collect, if_neg hfull]
    exact ⟨rfl, rfl⟩

theorem flatten_collect (limits : GroupLimits) (timer : Nat) (u : Updater α) (o : Outcome α) :
    (collect limits timer u o).2.flatten ++ (collect limits timer u o).1.group = u.group ++ [o] := by
  rcases collect_cases limits timer u o with ⟨hgroup, hdone⟩ | ⟨hgroup, hdone⟩
  · rw [hgroup, hdone, flatten_complete, List.append_nil]
  · rw [hgroup, hdone, List.flatten_nil, List.nil_append]

theorem oneKey_collect (limits : GroupLimits) (timer : Nat) {u : Updater α} {o : Outcome α}
    (h : OneKey (u.group ++ [o])) :
    OneKey (collect limits timer u o).1.group ∧ Mergeable (collect limits timer u o).2 := by
  rcases collect_cases limits timer u o with ⟨hgroup, hdone⟩ | ⟨hgroup, hdone⟩
  · rw [hgroup, hdone]
    exact ⟨by simp [OneKey], mergeable_complete h⟩
  · rw [hgroup, hdone]
    exact ⟨h, by simp [Mergeable]⟩

/-- Nothing that the updater was told gets lost or comes twice. -/
theorem flatten_step (limits : GroupLimits) (timer : Nat) (u : Updater α) (event : UpdaterEvent α) :
    (u.step limits timer event).2.flatten ++ (u.step limits timer event).1.group = u.group ++ event.outcomes := by
  cases event with
  | outcome o =>
      rw [step]
      split
      · have hcollect := flatten_collect limits timer ({} : Updater α) o
        simp only [List.flatten_append, flatten_complete, List.append_assoc]
        rw [hcollect]
        rfl
      · exact flatten_collect limits timer u o
  | deadline => simp [step, flatten_complete, UpdaterEvent.outcomes]
  | closed => simp [step, flatten_complete, UpdaterEvent.outcomes]

theorem oneKey_step (limits : GroupLimits) (timer : Nat) {u : Updater α} (h : OneKey u.group)
    (event : UpdaterEvent α) :
    OneKey (u.step limits timer event).1.group ∧ Mergeable (u.step limits timer event).2 := by
  cases event with
  | outcome o =>
      rw [step]
      split
      · have hone : OneKey (({} : Updater α).group ++ [o]) := by simp [OneKey]
        obtain ⟨hnext, hgroups⟩ := oneKey_collect limits timer hone
        refine ⟨hnext, fun g hg => ?_⟩
        rcases List.mem_append.1 hg with hg | hg
        · exact mergeable_complete h g hg
        · exact hgroups g hg
      · rename_i hsame
        refine oneKey_collect limits timer ?_
        have hall : ∀ a ∈ u.group, a.importKey = o.importKey := by
          intro a ha
          by_contra hne
          exact hsame (List.any_eq_true.2 ⟨a, ha, by simpa using hne⟩)
        intro a ha b hb
        rw [List.mem_append, List.mem_singleton] at ha hb
        rcases ha with ha | rfl <;> rcases hb with hb | rfl
        · exact h a ha b hb
        · exact hall a ha
        · exact (hall b hb).symm
        · rfl
  | deadline => exact ⟨by simp [step, OneKey], mergeable_complete h⟩
  | closed => exact ⟨by simp [step, OneKey], mergeable_complete h⟩

end Updater

/-! ## Merges of groups -/

namespace Store

/-- Every state stands under its own key and records blocks. -/
structure Recording (s : Store) : Prop where
  filed : s.Filed
  blocks : ∀ key state, s.get? key = some state → state.RecordsBlocks

/-- A store that holds no less than another one: the same keys, and the ranges of some more outcomes. -/
structure Gained (s : Store) (outcomes : List (Outcome UInt64)) (s' : Store) : Prop where
  recording : s'.Recording
  contains : ∀ key, s'.contains key = s.contains key
  covered : ∀ key, Range.values (s'.covered key) =
    Range.values (s.covered key) ∪ Range.values (Outcome.succeededFor key outcomes)

theorem Gained.refl {s : Store} (h : s.Recording) : Gained s [] s :=
  ⟨h, fun _ => rfl, fun _ => by simp [Outcome.succeededFor]⟩

theorem Gained.trans {s s' s'' : Store} {a b : List (Outcome UInt64)} (h : Gained s a s') (h' : Gained s' b s'') :
    Gained s (a ++ b) s'' where
  recording := h'.recording
  contains key := (h'.contains key).trans (h.contains key)
  covered key := by
    rw [h'.covered, h.covered, Outcome.succeededFor_append, Range.values_append, Set.union_assoc]

theorem gained_ofGroup {s : Store} (h : s.Recording) {key : String} (hkey : s.contains key = true)
    {group : List (Outcome UInt64)} (hgroup : ∀ o ∈ group, o.importKey = key) (now : Timestamp) :
    Gained s group (Merge.ofGroup s now key group).2 := by
  obtain ⟨state, hs⟩ := Option.isSome_iff_exists.1 hkey
  obtain ⟨merged, hm⟩ : ∃ merged, state.apply group now = .ok merged := by
    obtain ⟨k, data⟩ := state
    obtain ⟨feed, data, rfl⟩ := h.blocks key _ hs
    exact ⟨_, ImportState.apply_product k feed data group now⟩
  have hfollows := (ImportState.apply_eq_ok hm).2
  have hafter : (Merge.ofGroup s now key group).2 = s.set key merged := by
    simp only [Merge.ofGroup, merge_of_get? hs, hm, afterMerge]
  have hfiled := h.filed.afterMerge key group now
  change (Merge.ofGroup s now key group).2.Filed at hfiled
  rw [hafter] at hfiled ⊢
  refine ⟨⟨hfiled, fun other found hf => ?_⟩, fun other => ?_, fun other => ?_⟩
  · rw [Keyed.get?_set] at hf
    split at hf
    · cases hf
      exact hfollows.recordsBlocks
    · exact h.blocks other found hf
  · rw [Keyed.contains, Keyed.contains, Keyed.get?_set]
    split
    · rename_i ho
      rw [ho, hs]
      rfl
    · rfl
  · by_cases ho : other = key
    · subst ho
      rw [covered_of_get? (Keyed.get?_set_self s other merged), covered_of_get? hs, hfollows.covered,
        Range.values_merge, Range.values_append, h.filed other state hs]
    · have hnone : Outcome.succeededFor other group = [] := by
        rw [Outcome.succeededFor, List.map_eq_nil_iff, List.filter_eq_nil_iff]
        intro o hog
        simp [hgroup o hog, Ne.symm ho]
      have hsame : (s.set key merged).get? other = s.get? other := by rw [Keyed.get?_set, if_neg ho]
      rw [covered_congr hsame, hnone, Range.values_nil, Set.union_empty]

theorem gained_ofGroups {s : Store} (h : s.Recording) {groups : List (List (Outcome UInt64))}
    (hgroups : Mergeable groups) (hkeys : ∀ o ∈ groups.flatten, s.contains o.importKey = true) (now : Timestamp) :
    Gained s groups.flatten (Merge.ofGroups s now groups).2 := by
  induction groups generalizing s with
  | nil => exact Gained.refl h
  | cons group groups ih =>
      obtain ⟨⟨hne, hone⟩, hrest⟩ := List.forall_mem_cons.1 hgroups
      cases group with
      | nil => exact absurd rfl hne
      | cons o group =>
          have hfirst := gained_ofGroup h (hkeys o (by simp)) (fun a ha => hone a ha o List.mem_cons_self) now
          have hlater := ih hfirst.recording hrest fun a ha => by
            rw [hfirst.contains]
            exact hkeys a (by rw [List.flatten_cons]; exact List.mem_append_right _ ha)
          exact hfirst.trans hlater

end Store

end Backfill
