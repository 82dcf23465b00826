import Backfill.Proofs.Pass
import Backfill.Proofs.Plan.Bounds

/-!
# What a pass leaves as imported

A pass collects outcomes while it fetches and makes its successes known when it ends. None of these lies beyond
the newest block with which the pass was planned.
-/

namespace Backfill

/-- Nothing that the query serves ends beyond a block. -/
def Query.EndsBy (latest : UInt64) (q : Query Entity UInt64) : Prop :=
  ∀ p ∈ q.served, ∀ r ∈ p.2, r.last.toNat ≤ latest.toNat

theorem Query.valid_of_mem_served {q : Query Entity UInt64} (hv : q.range.valid = true)
    {p : Entity × List (Range UInt64)} (hp : p ∈ q.served) {r : Range UInt64} (hr : r ∈ p.2) : r.valid = true := by
  cases q with
  | single e range =>
      obtain rfl := List.mem_singleton.1 hp
      obtain rfl := List.mem_singleton.1 hr
      exact hv
  | shared entities range needs =>
      obtain ⟨⟨e, need⟩, -, rfl⟩ := List.mem_map.1 hp
      cases need with
      | whole =>
          obtain rfl := List.mem_singleton.1 hr
          exact hv
      | parts ranges => exact (Range.merged_clip ranges range).valid r hr

theorem Assignment.endsBy_of_mem_plan {a : Assignment} {config : Plan.BatchConfig} {now : Timestamp} {latest : UInt64}
    {lastImported : Keyed UInt64} {store : Store} {batch : List (Query Entity UInt64)}
    (hb : batch ∈ (a.plan config now latest lastImported store).1.batches) {q : Query Entity UInt64} (hq : q ∈ batch) :
    q.EndsBy latest := by
  intro p hp r hr
  have hv := Query.valid_of_mem_served (Plan.spans_of_mem_optimize (Plan.mem_of_mem_batches hb hq)).valid hp hr
  have hscanned := (Assignment.query_of_mem_plan hb hq).1.scanned p hp r hr _ (Range.last_mem hv)
  have hsettled := Plan.PassContext.mem_settledBlocks.1 (Assignment.settled_of_mem_plan hb hq _ hscanned)
  exact hsettled.trans (Nat.sub_le _ _)

namespace Pass

variable {σ : Type} {a : Assignment} {clock : Clock} {cancelled : Bool} {p : Pass} {act : Act σ Pass}

/-! ## Newest blocks -/

theorem newest_cons (known : Keyed UInt64) (o : Outcome UInt64) (outcomes : List (Outcome UInt64)) :
    newest known (o :: outcomes) =
      newest (if o.success then known.alter o.importKey fun k => k.elim o.range.last (Axis.later · o.range.last)
        else known) outcomes := by
  cases ho : o.success <;> simp [newest, ho]

instance lawfulOrderMax_word : Std.LawfulOrderMax UInt64 where
  max_eq_or a b := by
    by_cases h : a ≤ b
    · exact Or.inr (if_pos h)
    · exact Or.inl (if_neg h)
  max_le_iff a b c := by
    simp only [max]
    split <;> simp only [UInt64.le_iff_toNat_le] at * <;> omega

theorem later_word (a b : UInt64) : Axis.later a b = max a b := rfl

/-- The newest block of a key is the largest one of the one before and the ends of all that was imported. -/
theorem get?_newest (known : Keyed UInt64) (outcomes : List (Outcome UInt64)) (key : String) :
    (newest known outcomes).get? key =
      ((known.get? key).toList ++ (Outcome.succeededFor key outcomes).map (·.last)).max? := by
  induction outcomes generalizing known with
  | nil => cases h : known.get? key <;> simp [newest, Outcome.succeededFor, h]
  | cons o outcomes ih =>
      rw [newest_cons, ih]
      cases hs : o.success with
      | false => simp [Outcome.succeededFor, hs]
      | true =>
          simp only [if_true, Keyed.alter, Keyed.get?_set]
          by_cases hk : o.importKey = key
          · subst hk
            cases h : known.get? o.importKey with
            | none => simp [Outcome.succeededFor, hs]
            | some block => simp [Outcome.succeededFor, hs, later_word, List.max?_cons', -List.max?_cons]
          · simp [Outcome.succeededFor, hs, hk, Ne.symm hk]

/-- The newest block of a key is within a bound when it was before and all that was imported since is. -/
theorem newest_le_iff {known : Keyed UInt64} {outcomes : List (Outcome UInt64)} {key : String} {n : Nat} :
    (∀ block ∈ (newest known outcomes).get? key, block.toNat ≤ n) ↔
      (∀ block ∈ known.get? key, block.toNat ≤ n) ∧
        ∀ r ∈ Outcome.succeededFor key outcomes, r.last.toNat ≤ n := by
  have hmax : ∀ blocks : List UInt64,
      (∀ block ∈ blocks.max?, block.toNat ≤ n) ↔ ∀ block ∈ blocks, block.toNat ≤ n := by
    intro blocks
    cases h : blocks.max? with
    | none => simp [List.max?_eq_none_iff.1 h]
    | some newest =>
      obtain ⟨hmem, hle⟩ := List.max?_eq_some_iff.1 h
      simp only [Option.mem_some_iff, forall_eq']
      exact ⟨fun hn block hblock => (UInt64.le_iff_toNat_le.1 (hle block hblock)).trans hn, fun hn => hn newest hmem⟩
  rw [get?_newest, hmax, List.forall_mem_append, List.forall_mem_map]
  simp only [Option.mem_toList, Option.mem_def]

/-! ## Steps -/

/-- What the pass has collected. -/
def outcomes : Pass → List (Outcome UInt64)
  | .fetching f => f.outcomes
  | _ => []

/-- The newest block, when the next step plans with it. -/
def tip? (a : Assignment) (clock : Clock) (s : Shared σ) : Pass → Option UInt64
  | .opening =>
    if a.entities.isEmpty then none
    else a.batchConfig.toOption.bind fun _ => s.cache.word? clock.timer (tipKey a)
  | .tip _ call => call.result?.bind Except.toOption
  | _ => none

theorem outcomes_step [LockService σ] (s : Shared σ) (h : step a clock cancelled p = some act) :
    ((act.run s).2.lastImported = s.lastImported ∧
      (act.run s).1.outcomes = p.outcomes ++ p.delivery?.toList.flatMap fun r => Delivery.outcomesOf r.1 r.2) ∨
    (p.delivery? = none ∧ (act.run s).2.lastImported = newest s.lastImported p.outcomes ∧
      (act.run s).1.outcomes = [] ∧ (act.run s).1.result?.isSome = true) := by
  cases p with
  | opening =>
      cases h
      left
      unfold opened
      split
      · exact ⟨rfl, rfl⟩
      · split
        · exact ⟨rfl, rfl⟩
        · simp only [StateT.run_bind, StateT.run_get, pure_bind]
          split <;> exact ⟨rfl, rfl⟩
  | tip config call =>
      left
      simp only [step] at h
      split at h
      · rename_i r hr
        cases h
        cases r <;> exact ⟨rfl, rfl⟩
      · split at h
        · cases h
          exact ⟨rfl, rfl⟩
        · cases h
  | fetching f =>
      cases fetchStep_of_step h with
      | deliver before after flight r hf hr hdelivery =>
          rw [hdelivery]
          refine Or.inl ⟨rfl, ?_⟩
          rw [Option.toList_some, List.flatMap_singleton]
          rfl
      | begin place batch waiting hnone hgo hroom hwaiting =>
          rw [hnone]
          exact Or.inl ⟨rfl, (List.append_nil _).symm⟩
      | call before after flight hnone hf hdue =>
          rw [hnone]
          exact Or.inl ⟨rfl, (List.append_nil _).symm⟩
      | close hnone hempty => exact Or.inr ⟨hnone, rfl, rfl, rfl⟩
  | finished result => cases h

theorem endsBy_planned {config : Plan.BatchConfig} {latest : UInt64} {s : Shared σ}
    {batch : List (Query Entity UInt64)} (hb : batch ∈ ((planned a config clock latest).run s).1.batches) :
    ∀ q ∈ batch, q.EndsBy latest :=
  fun _ hq => Assignment.endsBy_of_mem_plan (mem_plan_of_mem_planned hb) hq

theorem batches_step [LockService σ] (s : Shared σ) (h : step a clock cancelled p = some act)
    {batch : List (Query Entity UInt64)} (hb : batch ∈ (act.run s).1.batches) :
    batch ∈ p.batches ∨ ∃ latest ∈ p.tip? a clock s, ∀ q ∈ batch, q.EndsBy latest := by
  cases p with
  | opening =>
      cases h
      right
      unfold opened at hb
      split at hb
      · cases hb
      · rename_i hsome
        split at hb
        · cases hb
        · rename_i config hconfig
          simp only [StateT.run_bind, StateT.run_get, pure_bind] at hb
          cases hw : s.cache.word? clock.timer (tipKey a) with
          | none =>
              rw [hw] at hb
              cases hb
          | some latest =>
              rw [hw] at hb
              exact ⟨latest, by rw [tip?, if_neg hsome, hconfig]; exact hw, endsBy_planned hb⟩
  | tip config call =>
      right
      simp only [step] at h
      split at h
      · rename_i r hr
        cases h
        cases r with
        | error e => cases hb
        | ok latest => exact ⟨latest, by rw [tip?, hr]; rfl, endsBy_planned hb⟩
      · split at h
        · cases h
          cases hb
        · cases h
  | fetching f => exact Or.inl ((within_of_fetchStep (fetchStep_of_step h) s).batches batch hb)
  | finished result => cases h

theorem mem_batches_of_delivery? {batch : List (Query Entity UInt64)} {answer : BatchAnswer}
    (h : p.delivery? = some (batch, answer)) : batch ∈ p.batches := by
  obtain ⟨flight, hflight, rfl, -⟩ := returned_of_delivery? h
  cases p with
  | fetching f => exact List.mem_append_right _ (List.mem_map_of_mem hflight)
  | opening => cases h
  | tip config call => cases h
  | finished result => cases h

/-! ## Answers -/

theorem imported_answerTip (a : Assignment) (clock : Clock) (answer : Except RpcError UInt64) (p : Pass)
    (s : Shared σ) :
    ((answerTip (σ := σ) a clock answer p).run s).2.lastImported = s.lastImported ∧
      ((answerTip (σ := σ) a clock answer p).run s).1.outcomes = p.outcomes := by
  cases p <;> exact ⟨rfl, rfl⟩

theorem imported_answerFetch (a : Assignment) (clock : Clock) (place : Nat) (answer : BatchAnswer) (p : Pass)
    (s : Shared σ) :
    ((answerFetch (σ := σ) a clock place answer p).run s).2.lastImported = s.lastImported ∧
      ((answerFetch (σ := σ) a clock place answer p).run s).1.outcomes = p.outcomes := by
  cases p with
  | fetching f =>
      simp only [answerFetch]
      split <;> exact ⟨rfl, rfl⟩
  | opening => exact ⟨rfl, rfl⟩
  | tip config call => exact ⟨rfl, rfl⟩
  | finished result => exact ⟨rfl, rfl⟩

end Pass

end Backfill
