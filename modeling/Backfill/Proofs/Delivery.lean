import Backfill.Delivery
import Backfill.Proofs.Coverage

/-!
# What a delivery counts as a success

A range counts as a success exactly when the whole call came back with one result a query and the one at
the place of its query is no error. The ranges that failed are the ones that are reported, and a key is flagged
when a query that serves it failed for want of the full history.
-/

namespace Backfill

/-- A query did not fail only if its own result says so in an answer of the right length. -/
theorem BatchAnswer.getElem?_failures_eq_none {answer : BatchAnswer} {size i : Nat} :
    (answer.failures size)[i]? = some none ↔
      ∃ results, answer = .ok results ∧ results.length = size ∧ results[i]? = some (.ok ()) := by
  cases answer with
  | error e => simp [failures, List.getElem?_replicate]
  | ok results =>
      simp only [failures]
      by_cases hlen : results.length = size
      · rw [if_pos hlen, List.getElem?_map]
        constructor
        · intro h
          obtain ⟨r, hr, hnone⟩ := Option.map_eq_some_iff.1 h
          refine ⟨results, rfl, hlen, ?_⟩
          cases r with
          | ok _ => exact hr
          | error e => cases hnone
        · rintro ⟨other, heq, -, hr⟩
          cases heq
          rw [hr]
          rfl
      · rw [if_neg hlen]
        constructor
        · intro h
          simp [List.getElem?_replicate] at h
        · rintro ⟨other, heq, hlen', -⟩
          cases heq
          exact absurd hlen' hlen

/-- A query of an answer of the right length fails with the error of the whole call, or with the one at its place. -/
theorem BatchAnswer.getElem?_failures_eq_some {answer : BatchAnswer} {size i : Nat} {e : RpcError}
    (h : (answer.failures size)[i]? = some (some e))
    (hlen : ∀ results, answer = .ok results → results.length = size) :
    answer = .error e ∨ ∃ results, answer = .ok results ∧ results[i]? = some (.error e) := by
  cases answer with
  | error other =>
      rw [failures, List.getElem?_replicate] at h
      split at h
      · cases h
        exact Or.inl rfl
      · cases h
  | ok results =>
      rw [failures, if_pos (hlen results rfl), List.getElem?_map, Option.map_eq_some_iff] at h
      obtain ⟨r, hr, he⟩ := h
      cases r with
      | ok _ => cases he
      | error other =>
          cases he
          exact Or.inr ⟨results, rfl, hr⟩

theorem BatchAnswer.length_failures (answer : BatchAnswer) (size : Nat) : (answer.failures size).length = size := by
  cases answer with
  | error e => simp [failures]
  | ok results =>
      by_cases hlen : results.length = size
      · simp [failures, hlen]
      · simp [failures, hlen]

/-- The query at a place did not fail. -/
def BatchAnswer.succeeded (size place : Nat) : BatchAnswer → Bool
  | .ok results => results.length == size && results[place]?.any Except.isOk
  | .error _ => false

theorem BatchAnswer.succeeded_iff {answer : BatchAnswer} {size place : Nat} :
    answer.succeeded size place = true ↔
      ∃ results, answer = .ok results ∧ results.length = size ∧ results[place]? = some (.ok ()) := by
  cases answer with
  | error e => simp [succeeded]
  | ok results =>
      have hok : results[place]?.any Except.isOk = true ↔ results[place]? = some (.ok ()) := by
        cases results[place]? with
        | none => simp
        | some r => cases r <;> simp [Except.isOk, Except.toBool]
      simp [succeeded, hok]

theorem BatchAnswer.isNone_of_getElem?_failures {answer : BatchAnswer} {size place : Nat} {failure : Option RpcError}
    (h : (answer.failures size)[place]? = some failure) : failure.isNone = answer.succeeded size place := by
  rw [Bool.eq_iff_iff, succeeded_iff, ← getElem?_failures_eq_none, h, Option.isNone_iff_eq_none, Option.some.injEq]

/-- The query at a place failed with an error of the provider. -/
def BatchAnswer.FailedWith (answer : BatchAnswer) (size place : Nat) (e : RpcError) : Prop :=
  answer = .error e ∨ ∃ results, answer = .ok results ∧ results.length = size ∧ results[place]? = some (.error e)

theorem BatchAnswer.getElem?_failures_of_failedWith {answer : BatchAnswer} {size place : Nat} {e : RpcError}
    (hplace : place < size) (h : answer.FailedWith size place e) : (answer.failures size)[place]? = some (some e) := by
  rcases h with rfl | ⟨results, rfl, hlen, hr⟩
  · simp [failures, hplace]
  · simp [failures, hlen, hr]

/-- An answer of the wrong length is no sign of a missing history. -/
theorem BatchAnswer.failedWith_of_archiveNodeNeeded {answer : BatchAnswer} {size place : Nat} {operation detail : String}
    (h : (answer.failures size)[place]? = some (some (.archiveNodeNeeded operation detail))) :
    answer.FailedWith size place (.archiveNodeNeeded operation detail) := by
  have hlen : ∀ results, answer = .ok results → results.length = size := by
    rintro results rfl
    by_contra hne
    simp [failures, hne, List.getElem?_replicate] at h
  refine (getElem?_failures_eq_some h hlen).imp_right ?_
  rintro ⟨results, hanswer, hr⟩
  exact ⟨results, hanswer, hlen results hanswer, hr⟩

namespace Delivery

theorem mem_zip_iff {β γ : Type} {xs : List β} {ys : List γ} {x : β} {y : γ} :
    (x, y) ∈ xs.zip ys ↔ ∃ i : Nat, xs[i]? = some x ∧ ys[i]? = some y := by
  rw [List.mem_iff_getElem?]
  exact exists_congr fun i => List.getElem?_zip_eq_some

/-- The outcomes of a batch that was answered. -/
def outcomesOf (batch : List (Query Entity UInt64)) (answer : BatchAnswer) : List (Outcome UInt64) :=
  (ofBatch batch answer).flatMap (·.outcomes)

theorem mem_outcomesOf {batch : List (Query Entity UInt64)} {answer : BatchAnswer} {o : Outcome UInt64} :
    o ∈ outcomesOf batch answer ↔ ∃ (i : Nat) (q : Query Entity UInt64) (failure : Option RpcError),
      batch[i]? = some q ∧ (answer.failures batch.length)[i]? = some failure ∧ ∃ p ∈ q.served, ∃ r ∈ p.2,
        o = ⟨p.1.importKey, r, failure.isNone⟩ := by
  simp only [outcomesOf, ofBatch, List.mem_flatMap, List.mem_map, outcomes]
  constructor
  · rintro ⟨d, ⟨⟨q, failure⟩, hzip, p, hp, rfl⟩, r, hr, rfl⟩
    obtain ⟨i, hq, hf⟩ := mem_zip_iff.1 hzip
    exact ⟨i, q, failure, hq, hf, p, hp, r, hr, rfl⟩
  · rintro ⟨i, q, failure, hq, hf, p, hp, r, hr, rfl⟩
    exact ⟨_, ⟨(q, failure), mem_zip_iff.2 ⟨i, hq, hf⟩, p, hp, rfl⟩, r, hr, rfl⟩

theorem mem_succeededFor_outcomesOf {batch : List (Query Entity UInt64)} {answer : BatchAnswer} {key : String}
    {r : Range UInt64} : r ∈ Outcome.succeededFor key (outcomesOf batch answer) ↔
      ∃ results, answer = .ok results ∧ results.length = batch.length ∧
        ∃ (i : Nat) (q : Query Entity UInt64), batch[i]? = some q ∧ results[i]? = some (.ok ()) ∧
          ∃ p ∈ q.served, p.1.importKey = key ∧ r ∈ p.2 := by
  rw [Outcome.mem_succeededFor, mem_outcomesOf]
  constructor
  · rintro ⟨i, q, failure, hq, hf, p, hp, s, hs, heq⟩
    obtain ⟨hkey, hr, hok⟩ := Outcome.mk.inj heq
    rw [eq_comm, Option.isNone_iff_eq_none] at hok
    rw [hok] at hf
    obtain ⟨results, ha, hlen, hi⟩ := BatchAnswer.getElem?_failures_eq_none.1 hf
    exact ⟨results, ha, hlen, i, q, hq, hi, p, hp, hkey.symm, hr ▸ hs⟩
  · rintro ⟨results, ha, hlen, i, q, hq, hi, p, hp, hkey, hr⟩
    exact ⟨i, q, none, hq, BatchAnswer.getElem?_failures_eq_none.2 ⟨results, ha, hlen, hi⟩, p, hp, r, hr,
      by rw [hkey]; rfl⟩

/-! ## All outcomes, reports and flags of a batch -/

/-- One outcome for each range that a query serves to each entity. -/
def outcomesOfQuery (q : Query Entity UInt64) (success : Bool) : List (Outcome UInt64) :=
  q.served.flatMap fun p => p.2.map fun range => ⟨p.1.importKey, range, success⟩

/-- The outcomes of a batch, query by query. -/
def servedOutcomes (batch : List (Query Entity UInt64)) (answer : BatchAnswer) : List (Outcome UInt64) :=
  batch.zipIdx.flatMap fun p => outcomesOfQuery p.1 (answer.succeeded batch.length p.2)

theorem outcomesOf_eq (batch : List (Query Entity UInt64)) (answer : BatchAnswer) :
    outcomesOf batch answer = servedOutcomes batch answer := by
  have hplaces : (batch.zip (answer.failures batch.length)).map (fun p => (p.1, p.2.isNone)) =
      batch.zipIdx.map fun p => (p.1, answer.succeeded batch.length p.2) := by
    apply List.ext_getElem
    · simp [answer.length_failures]
    · intro place hplace _
      have hfailure : place < (answer.failures batch.length).length := by
        simp only [List.length_map, List.length_zip] at hplace
        omega
      simp [BatchAnswer.isNone_of_getElem?_failures (List.getElem?_eq_getElem hfailure)]
  calc outcomesOf batch answer
      = ((batch.zip (answer.failures batch.length)).map fun p => (p.1, p.2.isNone)).flatMap
          fun p => outcomesOfQuery p.1 p.2 := by
        simp [outcomesOf, ofBatch, outcomes, outcomesOfQuery, List.flatMap_assoc, List.flatMap_map]
    _ = servedOutcomes batch answer := by rw [hplaces, List.flatMap_map, servedOutcomes]

/-- The reports are those of the outcomes that failed. -/
theorem map_reports (provider : String) (batch : List (Query Entity UInt64)) (answer : BatchAnswer) :
    ((ofBatch batch answer).flatMap (·.reports provider)).map (fun r => (r.importKey, r.range)) =
      ((outcomesOf batch answer).filter (!·.success)).map fun o => (o.importKey, o.range) := by
  rw [outcomesOf, List.filter_flatMap, List.map_flatMap, List.map_flatMap]
  apply List.flatMap_congr
  intro d _
  cases hfailure : d.failure with
  | none => simp [reports, outcomes, hfailure, List.filter_map, Function.comp_def]
  | some e => simp [reports, outcomes, hfailure, List.filter_map, Function.comp_def]

theorem mem_joining {known : List String} {deliveries : List Delivery} {key : String} :
    key ∈ joining known deliveries ↔
      key ∉ known ∧ ∃ d ∈ deliveries, d.needsArchive = true ∧ d.entity.importKey = key := by
  induction deliveries generalizing known with
  | nil => simp [joining]
  | cons d rest ih =>
    simp only [joining, Bool.and_eq_true, Bool.not_eq_true', List.contains_eq_mem, decide_eq_false_iff_not]
    split
    · rename_i hjoins
      rw [List.mem_cons, ih, List.mem_cons, List.exists_mem_cons_iff]
      by_cases hkey : key = d.entity.importKey
      · simp [hkey, hjoins]
      · simp [hkey, Ne.symm hkey]
    · rename_i hjoins
      rw [ih, List.exists_mem_cons_iff]
      refine and_congr_right fun hnew => ?_
      rw [or_iff_right]
      rintro ⟨hneeds, rfl⟩
      exact hjoins ⟨hneeds, hnew⟩

theorem needsArchive_iff {d : Delivery} :
    d.needsArchive = true ↔ ∃ operation detail, d.failure = some (.archiveNodeNeeded operation detail) := by
  unfold needsArchive
  split <;> simp_all

/-- The key of an entity that some query serves, which failed for want of the full history. -/
def LacksHistory (batch : List (Query Entity UInt64)) (answer : BatchAnswer) (key : String) : Prop :=
  ∃ (place : Nat) (q : Query Entity UInt64) (operation detail : String), batch[place]? = some q ∧
    answer.FailedWith batch.length place (.archiveNodeNeeded operation detail) ∧ ∃ p ∈ q.served, p.1.importKey = key

theorem lacksHistory_iff {batch : List (Query Entity UInt64)} {answer : BatchAnswer} {key : String} :
    LacksHistory batch answer key ↔
      ∃ d ∈ ofBatch batch answer, d.needsArchive = true ∧ d.entity.importKey = key := by
  simp only [ofBatch, List.mem_flatMap, List.mem_map, needsArchive_iff]
  constructor
  · rintro ⟨place, q, operation, detail, hq, hfailed, p, hp, hkey⟩
    obtain ⟨hplace, -⟩ := List.getElem?_eq_some_iff.1 hq
    have hfailure := BatchAnswer.getElem?_failures_of_failedWith hplace hfailed
    exact ⟨_, ⟨(q, _), mem_zip_iff.2 ⟨place, hq, hfailure⟩, p, hp, rfl⟩, ⟨operation, detail, rfl⟩, hkey⟩
  · rintro ⟨d, ⟨⟨q, failure⟩, hzip, p, hp, rfl⟩, ⟨operation, detail, hfailure⟩, hkey⟩
    obtain ⟨place, hq, hplace⟩ := mem_zip_iff.1 hzip
    cases hfailure
    exact ⟨place, q, operation, detail, hq, BatchAnswer.failedWith_of_archiveNodeNeeded hplace, p, hp, hkey⟩

end Delivery

end Backfill
