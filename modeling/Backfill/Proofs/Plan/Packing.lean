import Backfill.Proofs.Plan.Batches

/-!
# The batches are as few as can be

A batch is closed only when the next query does not fit. Two fillings of the same queries therefore never drift
more than one batch apart, whatever is in the batch at hand: the one with less in it is never behind, and can
be ahead by one batch at most. So no other way to cut the queries under the same rule gets by with fewer.
-/

namespace Backfill.Plan

variable {ε α : Type} {maxObjects cost : Nat} {q : Query ε α} {current rest queries : List (Query ε α)}

/-- Queries cut into consecutive batches, of which only one with a single query may cost more than allowed. -/
structure Packing (maxObjects : Nat) (queries : List (Query ε α)) (packed : List (List (Query ε α))) : Prop where
  flatten : packed.flatten = queries
  fits : ∀ batch ∈ packed, 2 ≤ batch.length → totalCost batch ≤ maxObjects

theorem packing_batches (maxObjects : Nat) (queries : List (Query ε α)) :
    Packing maxObjects queries (batches maxObjects queries) :=
  ⟨flatten_batches maxObjects queries, fun _ hb hlength => totalCost_le hb hlength⟩

/-! ## One query -/

theorem batchesFrom_of_fits (h : cost + q.cost ≤ maxObjects) : batchesFrom maxObjects current cost (q :: rest) =
    batchesFrom maxObjects (current ++ [q]) (cost + q.cost) rest := by
  rw [batchesFrom, if_neg (by simp [h])]

theorem batchesFrom_of_full (hc : current ≠ []) (h : ¬ cost + q.cost ≤ maxObjects) :
    batchesFrom maxObjects current cost (q :: rest) = current :: batchesFrom maxObjects [q] q.cost rest := by
  rw [batchesFrom, if_pos (by simp [hc, Nat.not_le.1 h])]

theorem batches_cons (maxObjects : Nat) (q : Query ε α) (rest : List (Query ε α)) :
    batches maxObjects (q :: rest) = batchesFrom maxObjects [q] q.cost rest := by
  simp [batches, batchesFrom]

theorem ne_nil_of_mem_batchesFrom {batch : List (Query ε α)}
    (hb : batch ∈ batchesFrom maxObjects current cost queries) : batch ≠ [] := by
  induction queries generalizing current cost with
  | nil =>
      rw [batchesFrom] at hb
      split at hb
      · cases hb
      · rename_i hfilled
        cases List.mem_singleton.1 hb
        exact fun hnil => hfilled (List.isEmpty_iff.2 hnil)
  | cons q rest ih =>
      rw [batchesFrom] at hb
      split at hb
      · rename_i hfull
        rcases List.mem_cons.1 hb with rfl | hb
        · rintro rfl
          simp at hfull
        · exact ih hb
      · exact ih hb

/-! ## Two fillings -/

/-- The filling with less in its batch needs no more batches, and at most one less. -/
theorem length_batchesFrom_near {less more : List (Query ε α)} {m n : Nat} (hless : less ≠ []) (hmore : more ≠ [])
    (h : m ≤ n) : (batchesFrom maxObjects less m rest).length ≤ (batchesFrom maxObjects more n rest).length ∧
      (batchesFrom maxObjects more n rest).length ≤ (batchesFrom maxObjects less m rest).length + 1 := by
  induction rest generalizing less more m n with
  | nil => simp [batchesFrom, hless, hmore]
  | cons q rest ih =>
      by_cases hn : n + q.cost ≤ maxObjects
      · have hm : m + q.cost ≤ maxObjects := by omega
        rw [batchesFrom_of_fits hm, batchesFrom_of_fits hn]
        exact ih (by simp) (by simp) (by omega)
      · rw [batchesFrom_of_full hmore hn, List.length_cons]
        by_cases hm : m + q.cost ≤ maxObjects
        · -- only the fuller batch is closed: from here on the other filling has more in its batch
          rw [batchesFrom_of_fits hm]
          have hturned : _ ≤ (batchesFrom maxObjects (less ++ [q]) (m + q.cost) rest).length ∧
              _ ≤ (batchesFrom maxObjects [q] q.cost rest).length + 1 :=
            ih (by simp) (by simp) (Nat.le_add_left q.cost m)
          omega
        · rw [batchesFrom_of_full hless hm, List.length_cons]
          omega

/-- A batch at hand costs at most one more batch. -/
theorem length_batchesFrom_le (hc : current ≠ []) (maxObjects cost : Nat) (rest : List (Query ε α)) :
    (batchesFrom maxObjects current cost rest).length ≤ (batches maxObjects rest).length + 1 := by
  cases rest with
  | nil => simp [batchesFrom, hc]
  | cons q rest =>
      rw [batches_cons]
      by_cases h : cost + q.cost ≤ maxObjects
      · rw [batchesFrom_of_fits h]
        exact (length_batchesFrom_near (by simp) (by simp) (Nat.le_add_left q.cost cost)).2
      · rw [batchesFrom_of_full hc h, List.length_cons]

/-! ## Other packings -/

theorem batchesFrom_append {batch : List (Query ε α)} (h : cost + totalCost batch ≤ maxObjects) :
    batchesFrom maxObjects current cost (batch ++ rest) =
      batchesFrom maxObjects (current ++ batch) (cost + totalCost batch) rest := by
  induction batch generalizing current cost with
  | nil => simp [totalCost]
  | cons q batch ih =>
      have hcost : totalCost (q :: batch) = q.cost + totalCost batch := by simp [totalCost]
      rw [hcost] at h ⊢
      rw [List.cons_append, batchesFrom_of_fits (by omega), ih (by omega), List.append_assoc, List.singleton_append,
        Nat.add_assoc]

/-- Queries that may share a batch are not divided when they come first. -/
theorem batches_append {batch : List (Query ε α)} (h : 2 ≤ batch.length → totalCost batch ≤ maxObjects) :
    batches maxObjects (batch ++ rest) = batchesFrom maxObjects batch (totalCost batch) rest := by
  match batch with
  | [] => rfl
  | [q] => rw [List.singleton_append, batches_cons]; simp [totalCost]
  | q :: r :: more =>
      have hfits := h (by simp)
      rw [batches, batchesFrom_append (by omega), List.nil_append, Nat.zero_add]

theorem Packing.length_batches_le {packed : List (List (Query ε α))} (h : Packing maxObjects queries packed) :
    (batches maxObjects queries).length ≤ packed.length := by
  obtain ⟨rfl, hfits⟩ := h
  induction packed with
  | nil => simp [batches, batchesFrom]
  | cons batch packed ih =>
      obtain ⟨hbatch, hrest⟩ := List.forall_mem_cons.1 hfits
      have hlater := ih hrest
      rw [List.flatten_cons, batches_append hbatch, List.length_cons]
      by_cases hempty : batch = []
      · subst hempty
        exact Nat.le_succ_of_le hlater
      · have hmore := length_batchesFrom_le hempty maxObjects (totalCost batch) packed.flatten
        omega

/-- The batches are non-empty and give back the queries in order, those of two or more queries cost no more than
allowed, and no other way to cut the queries under that rule needs fewer batches. -/
theorem batches_fewest (maxObjects : Nat) (queries : List (Query ε α)) :
    (∀ batch ∈ batches maxObjects queries, batch ≠ []) ∧
    (batches maxObjects queries).flatten = queries ∧
    (∀ batch ∈ batches maxObjects queries, 2 ≤ batch.length → totalCost batch ≤ maxObjects) ∧
    ∀ packed, Packing maxObjects queries packed → (batches maxObjects queries).length ≤ packed.length := by
  have hpacking := packing_batches maxObjects queries
  exact ⟨fun _ hb => ne_nil_of_mem_batchesFrom hb, hpacking.flatten, hpacking.fits, fun _ h => h.length_batches_le⟩

/-- A query over the limit is alone, also beside one that lists no entity and so costs nothing. -/
example : (batches 3 [.shared ["a", "b", "c", "d"] ⟨1, 9⟩ [], .shared [] ⟨1, (9 : UInt64)⟩ [], .single "e" ⟨1, 9⟩]).map
    List.length = [1, 2] := rfl

end Backfill.Plan
