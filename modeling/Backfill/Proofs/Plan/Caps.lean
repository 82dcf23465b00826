import Backfill.Proofs.Plan.Exactness
import Backfill.Proofs.Plan.Scans

/-!
# Plans keep within the caps

Whatever the slices look like, no query scans or lists more than the caps allow, and no input takes part in
more queries than its cap: slices and retries draw on one count. Caps that were tightened to a provider's
limits are within these limits.
-/

namespace Backfill

variable {ε : Type}

/-- Whether the query gives something to entities that `who` picks. -/
def Query.serves {α : Type} [Axis α] (who : ε → Bool) (q : Query ε α) : Bool := q.served.any (who ·.1)

/-- The query scans a valid range of at most so many blocks, and lists at most so many entities. -/
structure Query.Within (blocks entities : Nat) (q : Query ε UInt64) : Prop where
  valid : q.range.valid = true
  scanned : {x | x ∈ q.range}.ncard ≤ blocks
  listed : q.entities.length ≤ entities

theorem Query.Spans.ncard_le {inputs : List (PlanInput ε UInt64)} {n : Nat} {q : Query ε UInt64}
    (h : q.Spans inputs n) : {x | x ∈ q.range}.ncard ≤ n :=
  Range.ncard_blocks_le h.length

namespace Plan

/-! ## How many queries serve an input -/

section Served

variable {α : Type} {inputs : List (PlanInput ε α)} {input : PlanInput ε α} {who : ε → Bool}

theorem Only.of_who_iff {i : Nat} (hi : inputs[i]? = some input)
    (hwho : ∀ j other, inputs[j]? = some other → (who other.entity = true ↔ j = i)) : Only who inputs input where
  mem := List.mem_of_getElem? hi
  picked := (hwho i input hi).2 rfl
  pairwise := by
    rw [List.pairwise_iff_getElem]
    rintro j k hj hk hjk ⟨hwj, hwk⟩
    have hji := (hwho j _ (List.getElem?_eq_getElem hj)).1 hwj
    have hki := (hwho k _ (List.getElem?_eq_getElem hk)).1 hwk
    omega

variable [Axis α] {o : Options} {index : Index α}

theorem countP_serves_le (who : ε → Bool) (queries : List (Query ε α)) :
    queries.countP (Query.serves who) ≤ (shares who queries).length := by
  induction queries with
  | nil => exact Nat.zero_le _
  | cons q queries ih =>
      rw [List.countP_cons, shares, List.flatMap_cons, List.length_append, ← shares]
      split
      · rename_i hserves
        -- the query that serves has a share to show for it
        obtain ⟨p, hp, hwho⟩ := List.any_eq_true.1 hserves
        have hshare : p.2 ∈ Query.shares who q := List.mem_map_of_mem (List.mem_filter.2 ⟨hp, hwho⟩)
        have := List.length_pos_of_mem hshare
        omega
      · omega

variable [DecidableEq α]

/-- The slices use up part of the cap and the retries no more than the rest of it. -/
theorem Only.countP_serves_le [DiscreteAxis α] (h : Only who inputs input) :
    (optimize o index inputs).queries.countP (Query.serves who) ≤ o.maxQueries := by
  refine (Plan.countP_serves_le who _).trans ?_
  by_cases hv : input.full.valid = true
  · obtain ⟨asker, ha⟩ := exists_asker? (o := o) hv
    obtain ⟨got, hturns, hshares⟩ := h.shares_eq index ha
    have hslices := hturns.add_length_le (Nat.zero_le _)
    have hretries := Range.length_takePieces_le asker.retries (max 1 o.maxRange) (o.maxQueries - got.length)
      .newestFirst
    rw [hshares, List.length_append, List.length_map]
    omega
  · rw [h.shares_of_invalid hv]
    exact Nat.zero_le _

theorem length_entities_of_mem_optimize {q : Query ε α} (hq : q ∈ (optimize o index inputs).queries) :
    q.entities.length ≤ max 1 o.maxAddresses := by
  have hsingle : 1 ≤ max 1 o.maxAddresses := Nat.le_max_left ..
  rw [optimize_queries, List.mem_append] at hq
  rcases hq with hq | hq
  · obtain ⟨slice, -, group, hg, ⟨m, -, r, -, rfl⟩ | ⟨range, -, rfl⟩⟩ := mem_sliceQueries hq
    · exact hsingle
    · exact (List.length_map _).trans_le hg.length_le
  · obtain ⟨asker, -, r, -, rfl⟩ := mem_retryQueries hq
    exact hsingle

end Served

/-! ## Limits of a provider -/

theorem Options.maxRange_constrainedBy_le (o : Options) {l : Limitations} {n : UInt64} (h : l.blockSpan = some n) :
    (o.constrainedBy l).maxRange ≤ max 1 n.toNat := by
  simp only [Options.constrainedBy, h, Option.elim_some]
  omega

theorem Options.maxAddresses_constrainedBy_le (o : Options) {l : Limitations} {n : UInt64}
    (h : l.addressBatch = some n) : (o.constrainedBy l).maxAddresses ≤ max 1 n.toNat := by
  simp only [Options.constrainedBy, h, Option.elim_some]
  omega

/-! ## Every plan -/

variable {o : Options} {index : Index UInt64} {inputs : List (PlanInput ε UInt64)}

theorem within_of_mem_optimize {q : Query ε UInt64} (hq : q ∈ (optimize o index inputs).queries) :
    q.Within (max 1 o.maxRange) (max 1 o.maxAddresses) :=
  ⟨(spans_of_mem_optimize hq).valid, (spans_of_mem_optimize hq).ncard_le, length_entities_of_mem_optimize hq⟩

/-- The queries of a plan keep within the caps on blocks and entities, and the input at each place is served by
no more queries than the cap on those; so is an entity of one input. With caps that follow a provider's limits
the queries are within these limits as well, a limit of 0 counting as 1. An index has a say only in the slices
that it gives for what is missing, and nothing is asked of these: a fixed list may hold any. -/
theorem plan_within_caps (o : Options) (index : Index UInt64) (inputs : List (PlanInput ε UInt64)) :
    (∀ q ∈ (optimize o index inputs).queries, q.Within (max 1 o.maxRange) (max 1 o.maxAddresses)) ∧
    (optimize o index (placed inputs)).queries.map (Query.rename Prod.fst) = (optimize o index inputs).queries ∧
    (∀ i input, inputs[i]? = some input →
      (optimize o index (placed inputs)).queries.countP (Query.serves (·.2 == i)) ≤ o.maxQueries ∧
      ∀ who : ε → Bool, (∀ j other, inputs[j]? = some other → (who other.entity = true ↔ j = i)) →
        (optimize o index inputs).queries.countP (Query.serves who) ≤ o.maxQueries) ∧
    ∀ l : Limitations, ∀ q ∈ (optimize (o.constrainedBy l) index inputs).queries,
      (∀ n, l.blockSpan = some n → {x | x ∈ q.range}.ncard ≤ max 1 n.toNat) ∧
      ∀ n, l.addressBatch = some n → q.entities.length ≤ max 1 n.toNat := by
  refine ⟨fun q hq => within_of_mem_optimize hq, optimize_placed o index inputs, fun i input hi => ⟨?_, ?_⟩,
    fun l q hq => ⟨fun n hn => ?_, fun n hn => ?_⟩⟩
  · exact (only_placed hi).countP_serves_le
  · exact fun who hwho => (Only.of_who_iff hi hwho).countP_serves_le
  · have hcap := Options.maxRange_constrainedBy_le o hn
    exact (within_of_mem_optimize hq).scanned.trans (by omega)
  · have hcap := Options.maxAddresses_constrainedBy_le o hn
    exact (within_of_mem_optimize hq).listed.trans (by omega)

/-- The first contract is imported; of the second one two blocks are missing and another one failed before. -/
def twoPools : List (PlanInput String UInt64) := [⟨"pool", ⟨5, 6⟩, [⟨5, 6⟩], []⟩, ⟨"vault", ⟨5, 7⟩, [], [⟨7, 7⟩]⟩]

/-- The query for what is missing uses up the cap of the second contract, whose failed block has to wait. -/
theorem plan_within_caps_twoPools :
    (optimize (Options.constrainedBy ⟨9, 9, 1⟩ ⟨false, .noLimit, some 8, some 2, [], none⟩) (.fixed [⟨4, 9⟩])
      twoPools).queries.countP (Query.serves (· == "vault")) = 1 ∧
    (optimize (Options.constrainedBy ⟨9, 9, 1⟩ ⟨false, .noLimit, some 8, some 2, [], none⟩) (.fixed [⟨4, 9⟩])
      twoPools).queries.countP (Query.serves (· == "vault")) ≤ 1 := by
  refine ⟨by decide +kernel, ((plan_within_caps _ _ _).2.2.1 1 _ rfl).2 (· == "vault") fun j other hj => ?_⟩
  match j, hj with
  | 0, hj => cases hj; decide
  | 1, hj => cases hj; decide

end Plan

end Backfill
