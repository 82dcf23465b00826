import Backfill.Plan.Batch
import Mathlib.Algebra.GroupWithZero.Nat
import Mathlib.Order.Bounds.Basic
import Mathlib.Order.Interval.Set.Basic

/-!
# Batches stay under the limits of a provider

The size of batches is the greatest one that every used kind of call admits, or one where none is admitted.
The batches are the queries in order, cut where the next query does not fit, so only a query that is alone can
cost more than that.
-/

namespace Backfill

/-- Entities cost calls of this kind. -/
def CallCosts.Uses (costs : CallCosts) (kind : CallKind) : Prop := costs.count kind ≠ 0

instance (costs : CallCosts) (kind : CallKind) : Decidable (costs.Uses kind) := inferInstanceAs (Decidable (_ ≠ _))

/-- What `n` entities cost is within the number of every used kind, and an entity is alone where batching was
found unsafe. -/
def Limitations.Admits (l : Limitations) (costs : CallCosts) (n : Nat) : Prop :=
  ∀ kind, costs.Uses kind →
    (∀ limit, l.limit? kind = some (some limit) → n * costs.count kind ≤ limit.toNat) ∧
    (l.limit? kind = some none → n = 1)

namespace Plan

/-! ## The size -/

section Size

variable {costs : CallCosts} {l : Limitations} {provider : String} {stream : Stream} {config : BatchConfig}

theorem le_achievable_some {limit : UInt64} {calls n : Nat} (h : calls ≠ 0) :
    n ≤ achievable (some limit) calls ↔ n * calls ≤ limit.toNat :=
  Nat.le_div_iff_mul_le (Nat.pos_of_ne_zero h)

/-- The size is an error exactly for a used kind without a limit, and names the first such kind. -/
theorem batchSize_eq_error {kinds : List CallKind} {most : Nat} {e : ConfigError}
    (h : batchSize costs l provider kinds most = .error e) :
    ∃ kind ∈ kinds, costs.Uses kind ∧ l.limit? kind = none ∧ e = .missingLimitation kind.text provider := by
  induction kinds generalizing most with
  | nil => cases h
  | cons kind kinds ih =>
      rw [batchSize] at h
      by_cases hcalls : costs.count kind = 0
      · rw [if_pos hcalls] at h
        obtain ⟨missing, hmem, hmissing⟩ := ih h
        exact ⟨missing, List.mem_cons_of_mem _ hmem, hmissing⟩
      · rw [if_neg hcalls] at h
        cases hlimit : l.limit? kind with
        | none =>
            simp only [hlimit, Except.error.injEq] at h
            exact ⟨kind, List.mem_cons_self, hcalls, hlimit, h.symm⟩
        | some limit =>
            simp only [hlimit] at h
            obtain ⟨missing, hmem, hmissing⟩ := ih h
            exact ⟨missing, List.mem_cons_of_mem _ hmem, hmissing⟩

theorem batchSize_eq_ok {kinds : List CallKind} {most size : Nat} (h : batchSize costs l provider kinds most = .ok size)
    (n : Nat) : n ≤ size ↔ n ≤ most ∧ ∀ kind ∈ kinds, costs.Uses kind →
      ∃ limit, l.limit? kind = some limit ∧ n ≤ achievable limit (costs.count kind) := by
  induction kinds generalizing most with
  | nil =>
      cases h
      simp
  | cons kind kinds ih =>
      rw [batchSize] at h
      rw [List.forall_mem_cons]
      by_cases hcalls : costs.count kind = 0
      · rw [if_pos hcalls] at h
        rw [ih h]
        exact ⟨fun ⟨hn, hrest⟩ => ⟨hn, fun huses => absurd hcalls huses, hrest⟩, fun ⟨hn, _, hrest⟩ => ⟨hn, hrest⟩⟩
      · rw [if_neg hcalls] at h
        cases hlimit : l.limit? kind with
        | none => simp only [hlimit, reduceCtorEq] at h
        | some limit =>
            simp only [hlimit] at h
            rw [ih h, Nat.le_min, and_assoc]
            refine and_congr_right fun _ => and_congr_left fun _ => ⟨fun hn _ => ⟨limit, rfl, hn⟩, fun hn => ?_⟩
            obtain ⟨_, hsame, hn⟩ := hn hcalls
            cases hsame
            exact hn

theorem batchConfig_eq_error_iff {e : ConfigError} : batchConfig costs l stream provider = .error e ↔
    batchSize costs l provider CallKind.all (max 1 stream.maxTake) = .error e := by
  cases hsize : batchSize costs l provider CallKind.all (max 1 stream.maxTake) <;>
    simp [batchConfig, hsize, bind, Except.bind, pure, Except.pure]

theorem batchConfig_eq_ok (h : batchConfig costs l stream provider = .ok config) :
    ∃ size, batchSize costs l provider CallKind.all (max 1 stream.maxTake) = .ok size ∧
      config.maxObjects = max 1 size := by
  cases hsize : batchSize costs l provider CallKind.all (max 1 stream.maxTake) with
  | error e => simp [batchConfig, hsize, bind, Except.bind] at h
  | ok size =>
      simp only [batchConfig, hsize, bind, Except.bind, pure, Except.pure, Except.ok.injEq] at h
      exact ⟨size, rfl, by rw [← h]⟩

theorem batchConfig_fails_iff :
    (∃ e, batchConfig costs l stream provider = .error e) ↔ ∃ kind, costs.Uses kind ∧ l.limit? kind = none := by
  constructor
  · rintro ⟨e, he⟩
    obtain ⟨kind, -, huses, hnone, -⟩ := batchSize_eq_error (batchConfig_eq_error_iff.1 he)
    exact ⟨kind, huses, hnone⟩
  · rintro ⟨kind, huses, hnone⟩
    cases hsize : batchSize costs l provider CallKind.all (max 1 stream.maxTake) with
    | error e => exact ⟨e, batchConfig_eq_error_iff.2 hsize⟩
    | ok size =>
        obtain ⟨-, hall⟩ := (batchSize_eq_ok hsize size).1 le_rfl
        obtain ⟨limit, hlimit, -⟩ := hall kind (CallKind.mem_all kind) huses
        rw [hnone] at hlimit
        cases hlimit

/-- With limits for all used kinds, the sizes up to the one chosen are those that the limits admit. -/
theorem le_batchSize_iff {size n : Nat}
    (h : batchSize costs l provider CallKind.all (max 1 stream.maxTake) = .ok size) (hn : 1 ≤ n) :
    n ≤ size ↔ n ≤ max 1 stream.maxTake ∧ l.Admits costs n := by
  rw [batchSize_eq_ok h]
  refine and_congr_right fun _ => ⟨fun hall kind huses => ?_, fun hadmits kind _ huses => ?_⟩
  · obtain ⟨limit, hlimit, hle⟩ := hall kind (CallKind.mem_all kind) huses
    rw [hlimit]
    refine ⟨fun number hnumber => ?_, fun hunsafe => ?_⟩
    · cases hnumber
      exact (le_achievable_some huses).1 hle
    · cases hunsafe
      exact Nat.le_antisymm hle hn
  · obtain ⟨-, hall⟩ := (batchSize_eq_ok h size).1 le_rfl
    obtain ⟨limit, hlimit, -⟩ := hall kind (CallKind.mem_all kind) huses
    refine ⟨limit, hlimit, ?_⟩
    cases limit with
    | none => exact ((hadmits kind huses).2 hlimit).le
    | some number => exact (le_achievable_some huses).2 ((hadmits kind huses).1 number hlimit)

theorem batchConfig_maxObjects (h : batchConfig costs l stream provider = .ok config) :
    IsGreatest {n | n ∈ Set.Icc 1 (max 1 stream.maxTake) ∧ l.Admits costs n} config.maxObjects ∨
      config.maxObjects = 1 ∧ ∀ n ∈ Set.Icc 1 (max 1 stream.maxTake), ¬ l.Admits costs n := by
  obtain ⟨size, hsize, hmax⟩ := batchConfig_eq_ok h
  have hle := fun n hn => le_batchSize_iff (n := n) hsize hn
  by_cases hpos : 1 ≤ size
  · refine Or.inl ⟨?_, fun n ⟨hn, hadmits⟩ => ?_⟩
    · obtain ⟨htake, hadmits⟩ := (hle size hpos).1 le_rfl
      rw [hmax, Nat.max_eq_right hpos]
      exact ⟨⟨hpos, htake⟩, hadmits⟩
    · exact ((hle n hn.1).2 ⟨hn.2, hadmits⟩).trans (hmax ▸ Nat.le_max_right ..)
  · refine Or.inr ⟨by omega, fun n hn hadmits => hpos ?_⟩
    exact hn.1.trans ((hle n hn.1).2 ⟨hn.2, hadmits⟩)

theorem admits_of_one_lt (h : batchConfig costs l stream provider = .ok config) (hone : 1 < config.maxObjects) :
    l.Admits costs config.maxObjects := by
  rcases batchConfig_maxObjects h with hgreatest | ⟨hmax, -⟩
  · exact hgreatest.1.2
  · omega

end Size

/-! ## The batches -/

section Batches

variable {ε α : Type} {maxObjects : Nat} {queries batch : List (Query ε α)}

/-- What the queries cost together. -/
def totalCost (queries : List (Query ε α)) : Nat := (queries.map Query.cost).sum

theorem flatten_batchesFrom (maxObjects : Nat) (current : List (Query ε α)) (cost : Nat)
    (queries : List (Query ε α)) : (batchesFrom maxObjects current cost queries).flatten = current ++ queries := by
  induction queries generalizing current cost with
  | nil =>
      rw [batchesFrom]
      split
      · rename_i hempty
        rw [List.isEmpty_iff.1 hempty, List.flatten_nil, List.append_nil]
      · rw [List.flatten_singleton, List.append_nil]
  | cons q rest ih =>
      rw [batchesFrom]
      split
      · rw [List.flatten_cons, ih, List.singleton_append]
      · rw [ih, List.append_assoc, List.singleton_append]

theorem flatten_batches (maxObjects : Nat) (queries : List (Query ε α)) :
    (batches maxObjects queries).flatten = queries := flatten_batchesFrom maxObjects [] 0 queries

theorem mem_of_mem_batches (hb : batch ∈ batches maxObjects queries) {q : Query ε α} (hq : q ∈ batch) :
    q ∈ queries := by
  rw [← flatten_batches maxObjects queries]
  exact List.mem_flatten_of_mem hb hq

/-- A batch that is being filled costs more than allowed only while it holds at most one query. -/
theorem totalCost_of_mem_batchesFrom {current : List (Query ε α)}
    (hcurrent : 2 ≤ current.length → totalCost current ≤ maxObjects)
    (hb : batch ∈ batchesFrom maxObjects current (totalCost current) queries) (hlength : 2 ≤ batch.length) :
    totalCost batch ≤ maxObjects := by
  induction queries generalizing current with
  | nil =>
      rw [batchesFrom] at hb
      split at hb
      · cases hb
      · cases List.mem_singleton.1 hb
        exact hcurrent hlength
  | cons q rest ih =>
      have hone : totalCost [q] = q.cost := by simp [totalCost]
      have hmore : totalCost (current ++ [q]) = totalCost current + q.cost := by simp [totalCost]
      rw [batchesFrom] at hb
      split at hb
      · -- the batch is closed, and the query begins the next one, alone
        rcases List.mem_cons.1 hb with rfl | hb
        · exact hcurrent hlength
        · exact ih (fun h => absurd h (by simp)) (hone ▸ hb)
      · -- the query joins the batch, which was empty or has room for it
        rename_i hfits
        refine ih (fun h => ?_) (hmore ▸ hb)
        have hfilled : current ≠ [] := by
          rintro rfl
          simp at h
        simp only [Bool.and_eq_true, Bool.not_eq_true', List.isEmpty_eq_false_iff, decide_eq_true_eq, not_and,
          Nat.not_lt] at hfits
        exact hmore ▸ hfits hfilled

theorem totalCost_le (hb : batch ∈ batches maxObjects queries) (hlength : 2 ≤ batch.length) :
    totalCost batch ≤ maxObjects :=
  totalCost_of_mem_batchesFrom (fun h => absurd h (by simp)) hb hlength

theorem length_le_totalCost (h : ∀ q ∈ queries, q.entities ≠ []) : queries.length ≤ totalCost queries := by
  induction queries with
  | nil => exact Nat.zero_le _
  | cons q rest ih =>
      obtain ⟨hq, hrest⟩ := List.forall_mem_cons.1 h
      have hpos : 0 < q.cost := List.length_pos_iff.2 hq
      have := ih hrest
      simp only [totalCost, List.map_cons, List.sum_cons, List.length_cons] at this ⊢
      omega

end Batches

/-! ## The limits -/

variable {costs : CallCosts} {l : Limitations} {stream : Stream} {provider : String}

/-- The size of batches is an error exactly if a used kind has no limit. Otherwise it is the greatest one up to
what may be taken at once that the limits admit, or one if they admit none; and batches of that size are the
queries in order, where several queries share a batch only within the limits of every used kind, and never where
batching was found unsafe. -/
theorem batches_under_limits (costs : CallCosts) (l : Limitations) (stream : Stream) (provider : String) :
    ((∃ e, batchConfig costs l stream provider = .error e) ↔ ∃ kind, costs.Uses kind ∧ l.limit? kind = none) ∧
    (∀ e, batchConfig costs l stream provider = .error e →
      ∃ kind, costs.Uses kind ∧ l.limit? kind = none ∧ e = .missingLimitation kind.text provider) ∧
    ∀ config, batchConfig costs l stream provider = .ok config →
      (IsGreatest {n | n ∈ Set.Icc 1 (max 1 stream.maxTake) ∧ l.Admits costs n} config.maxObjects ∨
        config.maxObjects = 1 ∧ ∀ n ∈ Set.Icc 1 (max 1 stream.maxTake), ¬ l.Admits costs n) ∧
      ∀ (ε α : Type) (queries : List (Query ε α)), (∀ q ∈ queries, q.entities ≠ []) →
        (batches config.maxObjects queries).flatten = queries ∧
        ∀ batch ∈ batches config.maxObjects queries, 2 ≤ batch.length → ∀ kind, costs.Uses kind →
          (∀ limit, l.limit? kind = some (some limit) → totalCost batch * costs.count kind ≤ limit.toNat) ∧
          l.limit? kind ≠ some none := by
  refine ⟨batchConfig_fails_iff, fun e he => ?_, fun config hconfig => ⟨batchConfig_maxObjects hconfig, ?_⟩⟩
  · obtain ⟨kind, -, hkind⟩ := batchSize_eq_error (batchConfig_eq_error_iff.1 he)
    exact ⟨kind, hkind⟩
  · refine fun ε α queries hqueries => ⟨flatten_batches _ queries, fun batch hb hlength kind huses => ?_⟩
    have hcost : totalCost batch ≤ config.maxObjects := totalCost_le hb hlength
    have hmany : 2 ≤ totalCost batch :=
      hlength.trans (length_le_totalCost fun q hq => hqueries q (mem_of_mem_batches hb hq))
    obtain ⟨hnumber, hunsafe⟩ := admits_of_one_lt hconfig (by omega) kind huses
    refine ⟨fun limit hlimit => ?_, fun hnone => ?_⟩
    · exact (Nat.mul_le_mul_right _ hcost).trans (hnumber limit hlimit)
    · have := hunsafe hnone
      omega

/-- At three calls an entity a limit of 100 admits 33 entities: 32 and one more travel together, the next one
waits. No limit at all is an error. -/
theorem batches_under_limits_threeCalls :
    (batchConfig [(.getLogs, 3)] ⟨false, .noLimit, none, none, [(.getLogs, some 100)], none⟩ {} "node").toOption =
      some ⟨33, 10⟩ ∧
    totalCost [.shared (List.replicate 32 "pool") ⟨5, 9⟩ [], .single "vault" ⟨5, (9 : UInt64)⟩] * 3 ≤ 100 ∧
    ∃ kind, CallCosts.Uses [(.getLogs, 3)] kind ∧ Limitations.limit? { minDelay := .noLimit } kind = none := by
  refine ⟨rfl, ?_, ?_⟩
  · have h := (batches_under_limits [(.getLogs, 3)]
      ⟨false, .noLimit, none, none, [(.getLogs, some 100)], none⟩ {} "node").2.2 ⟨33, 10⟩ rfl
    obtain ⟨-, hbatches⟩ := h.2 String UInt64
      [.shared (List.replicate 32 "pool") ⟨5, 9⟩ [], .single "vault" ⟨5, 9⟩, .single "vault" ⟨10, 12⟩] (by simp [Query.entities])
    exact (hbatches _ (List.mem_cons_self ..) (by decide) .getLogs (by decide)).1 100 rfl
  · obtain ⟨kind, huses, hnone, -⟩ := (batches_under_limits [(.getLogs, 3)] { minDelay := .noLimit } {} "node").2.1
      (.missingLimitation "eth_get_logs" "node") rfl
    exact ⟨kind, huses, hnone⟩

end Plan

end Backfill
