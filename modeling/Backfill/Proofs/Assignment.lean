import Backfill.Assignment
import Backfill.Proofs.Plan.Batches
import Backfill.Proofs.Plan.Recipients
import Backfill.Proofs.Plan.Window
import Backfill.Proofs.Updater

/-!
# What a pass sets out with

Before a pass plans anything, every entity in its care has a state; creating the states that lack covers
nothing. The batches of its plan hold sound queries for these entities.
-/

namespace Backfill

/-- The entity starts with a state of a product feed. -/
def Entity.OnBlocks (e : Entity) : Prop := ∃ feed data, e.data = .product feed data

namespace Store

/-- A store with more states, which covers what the other one does. -/
structure Widened (s s' : Store) : Prop where
  recording : s'.Recording
  contains : ∀ key, s.contains key = true → s'.contains key = true
  covered : ∀ key, s'.covered key = s.covered key

theorem Widened.refl {s : Store} (h : s.Recording) : Widened s s := ⟨h, fun _ hk => hk, fun _ => rfl⟩

theorem Widened.trans {s s' s'' : Store} (h : Widened s s') (h' : Widened s' s'') : Widened s s'' :=
  ⟨h'.recording, fun key hk => h'.contains key (h.contains key hk), fun key => (h'.covered key).trans (h.covered key)⟩

theorem widened_createIfMissing {s : Store} (h : s.Recording) {e : Entity} (he : e.OnBlocks) (now : Timestamp) :
    Widened s (s.createIfMissing (e.initialState now)).2 ∧
      (s.createIfMissing (e.initialState now)).2.contains e.importKey = true := by
  obtain ⟨feed, data, hdata⟩ := he
  have hget := fun key => get?_createIfMissing s (e.initialState now) key
  refine ⟨⟨⟨h.filed.createIfMissing _, fun key state hs => ?_⟩, fun key hk => ?_, fun key => ?_⟩, ?_⟩
  · rw [hget, Option.or_eq_some_iff] at hs
    rcases hs with hs | ⟨-, hs⟩
    · exact h.blocks key state hs
    · split at hs
      · cases hs
        exact ⟨feed, _, by rw [Entity.initialState, hdata]; rfl⟩
      · cases hs
  · obtain ⟨state, hs⟩ := Option.isSome_iff_exists.1 hk
    rw [Keyed.contains, hget, hs]
    rfl
  · rw [covered, covered, hget]
    cases hs : s.get? key with
    | some state => rfl
    | none =>
        rw [Option.none_or]
        split
        · rw [Entity.initialState, hdata]
          rfl
        · rfl
  · rw [Keyed.contains, hget, Entity.initialState, if_pos rfl, Option.isSome_or, Option.isSome_some, Bool.or_true]

end Store

namespace Assignment

theorem widened_createStates (now : Timestamp) {entities : List Entity} (he : ∀ e ∈ entities, e.OnBlocks) {s : Store}
    (h : s.Recording) : s.Widened (createStates now entities s).1 ∧
      ∀ e ∈ entities, (createStates now entities s).1.contains e.importKey = true := by
  induction entities generalizing s with
  | nil => exact ⟨Store.Widened.refl h, by simp⟩
  | cons e rest ih =>
      obtain ⟨hblocks, hrest⟩ := List.forall_mem_cons.1 he
      by_cases hk : s.contains e.importKey = true
      · obtain ⟨hwide, hall⟩ := ih hrest h
        rw [createStates, if_pos hk]
        exact ⟨hwide, List.forall_mem_cons.2 ⟨hwide.contains _ hk, hall⟩⟩
      · obtain ⟨hnow, hin⟩ := Store.widened_createIfMissing h hblocks now
        obtain ⟨hwide, hall⟩ := ih hrest hnow.recording
        rw [createStates, if_neg hk]
        exact ⟨hnow.trans hwide, List.forall_mem_cons.2 ⟨hwide.contains _ hin, hall⟩⟩


variable {a : Assignment} {config : Plan.BatchConfig} {now : Timestamp} {latest : UInt64}
  {lastImported : Keyed UInt64} {store : Store}

theorem entity_of_mem_inputs {input : PlanInput Entity UInt64} (h : input ∈ a.inputs latest lastImported store) :
    input.entity ∈ a.entities := by
  obtain ⟨e, he, hin⟩ := List.mem_filterMap.1 h
  rw [Plan.entity_of_planInput (Plan.planInput_of_toOption hin)]
  exact he

theorem query_of_mem_plan {batch : List (Query Entity UInt64)}
    (hb : batch ∈ (a.plan config now latest lastImported store).1.batches) {q : Query Entity UInt64} (hq : q ∈ batch) :
    q.Sound ∧ ∀ e ∈ q.entities, e ∈ a.entities := by
  have hplan := Plan.mem_of_mem_batches hb hq
  refine ⟨Plan.sound_optimize hplan, fun e he => ?_⟩
  obtain ⟨input, hin, -, rfl⟩ := Plan.mem_entities_optimize hplan he
  exact entity_of_mem_inputs hin

end Assignment

end Backfill
