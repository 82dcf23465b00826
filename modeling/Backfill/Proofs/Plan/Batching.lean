import Backfill.Proofs.Plan.Reach
import Mathlib

/-!
# Batching serves no less

Without batching every query is one of a single entity, so a turn gives the newest parts one by one. A batched
turn that starts with no more queries used ends with no more used, and gives at least these parts: a shared query
is one query and gives all of them. So at each slice the batched plan has used no more of the cap, and it has no
less room for retries.
-/

namespace Backfill.Plan

open Range (values)

theorem append_subset_append {β : Type} {xs xs' ys ys' : List β} (hx : xs ⊆ xs') (hy : ys ⊆ ys') :
    xs ++ ys ⊆ xs' ++ ys' :=
  List.append_subset.2 ⟨List.subset_append_of_subset_left _ hx, List.subset_append_of_subset_right _ hy⟩

section Turns

variable {α : Type} {cap used used' : Nat} {parts : List (Range α)} {now now' : List (List (Range α))}

/-- A turn whose queries give one range each gives the newest parts as far as the cap allows. -/
theorem Turn.eq_of_ones (h : Turn cap used parts now) (hones : ∀ share ∈ now, share.length = 1) :
    now = (parts.reverse.take (cap - used)).map ([·]) := by
  cases h with
  | passed hno =>
      rcases hno with hfull | rfl
      · rw [Nat.sub_eq_zero_of_le hfull, List.take_zero, List.map_nil]
      · rw [List.reverse_nil, List.take_nil, List.map_nil]
  | together hroom _ =>
      obtain ⟨part, rfl⟩ := List.length_eq_one_iff.1 (hones parts List.mem_cons_self)
      rw [List.take_of_length_le (by rw [List.length_reverse, List.length_singleton]; omega)]
      rfl
  | alone _ _ => rfl

/-- A turn that starts with more room than another one gives the parts that the other one gives alone, and ends
with no less room. -/
theorem Turn.gives_alone (h : Turn cap used' parts now') (hle : used' ≤ used) :
    used' + now'.length ≤ used + (parts.reverse.take (cap - used)).length ∧
      parts.reverse.take (cap - used) ⊆ now'.flatten := by
  rw [List.length_take, List.length_reverse]
  cases h with
  | passed hno =>
      rcases hno with hfull | rfl
      · rw [Nat.sub_eq_zero_of_le (hfull.trans hle)]
        exact ⟨Nat.le_add_right_of_le hle, List.nil_subset _⟩
      · rw [List.reverse_nil, List.take_nil]
        exact ⟨Nat.le_add_right_of_le hle, List.nil_subset _⟩
  | together hroom hparts =>
      have hpos := List.length_pos_iff.2 hparts
      rw [List.length_singleton, List.flatten_singleton]
      exact ⟨by omega, fun r hr => List.mem_reverse.1 (List.mem_of_mem_take hr)⟩
  | alone hroom hparts =>
      rw [List.length_map, List.length_take, List.length_reverse, flatten_map_singleton]
      exact ⟨by omega, List.take_subset_take_left _ (by omega)⟩

theorem Turn.gives_ones (h : Turn cap used parts now) (h' : Turn cap used' parts now') (hle : used' ≤ used)
    (hones : ∀ share ∈ now, share.length = 1) :
    used' + now'.length ≤ used + now.length ∧ now.flatten ⊆ now'.flatten := by
  rw [h.eq_of_ones hones, List.length_map, flatten_map_singleton]
  exact h'.gives_alone hle

variable [Axis α] {fresh slices : List (Range α)} {got got' : List (List (Range α))}

theorem Turns.gives_ones (h : Turns cap fresh used slices got) (h' : Turns cap fresh used' slices got')
    (hle : used' ≤ used) (hones : ∀ share ∈ got, share.length = 1) :
    used' + got'.length ≤ used + got.length ∧ got.flatten ⊆ got'.flatten := by
  induction h generalizing used' got' with
  | nil =>
      cases h'
      exact ⟨hle, List.nil_subset _⟩
  | @cons used slice slices now later hturn _ ih =>
      cases h' with
      | @cons _ _ _ now' later' hturn' hturns' =>
          obtain ⟨hnow, hlater⟩ := List.forall_mem_append.1 hones
          obtain ⟨hcount, hgives⟩ := hturn.gives_ones hturn' hle hnow
          obtain ⟨hcounts, hgiven⟩ := ih hturns' hcount hlater
          rw [List.length_append, List.length_append, List.flatten_append, List.flatten_append]
          exact ⟨by omega, append_subset_append hgives hgiven⟩

end Turns

/-! ## Plans without batching -/

variable {ε α : Type} [Axis α] [DecidableEq α] {o : Options} {index : Index α} {inputs : List (PlanInput ε α)}
  {input : PlanInput ε α} {who : ε → Bool}

theorem exists_single_of_mem_optimize (ho : o.maxAddresses ≤ 1) {q : Query ε α}
    (hq : q ∈ (optimize o index inputs).queries) : ∃ e r, q = .single e r := by
  rw [optimize_queries, List.mem_append] at hq
  rcases hq with hq | hq
  · obtain ⟨slice, -, group, hg, ⟨m, -, r, -, rfl⟩ | ⟨range, hshared, -⟩⟩ := mem_sliceQueries hq
    · exact ⟨_, r, rfl⟩
    · have hlen := hg.length_le
      rw [sharedRange?, if_pos (by omega)] at hshared
      cases hshared
  · obtain ⟨asker, -, r, -, rfl⟩ := mem_retryQueries hq
    exact ⟨_, r, rfl⟩

theorem length_eq_one_of_mem_shares (ho : o.maxAddresses ≤ 1) {share : List (Range α)}
    (h : share ∈ shares who (optimize o index inputs).queries) : share.length = 1 := by
  obtain ⟨q, hq, h⟩ := List.mem_flatMap.1 h
  obtain ⟨p, hp, rfl⟩ := List.mem_map.1 h
  obtain ⟨e, r, rfl⟩ := exists_single_of_mem_optimize ho hq
  obtain rfl := List.mem_singleton.1 (List.mem_filter.1 hp).1
  rfl

variable [DiscreteAxis α]

/-- Both plans cut the same slices and ask for the same things. With batching the turns use no more of the cap and
give at least what they give without it, and the retries take the room that is left. -/
theorem Only.shares_batched (h : Only who inputs input) (addresses : Nat) (index : Index α) {asker : Asker ε α}
    (ha : asker? o input = some asker) :
    ∃ got got' : List (List (Range α)), got'.length ≤ got.length ∧ got.length ≤ o.maxQueries ∧
      got.flatten ⊆ got'.flatten ∧
      shares who (optimize { o with maxAddresses := 1 } index inputs).queries =
        got ++ ((Range.splitAll asker.retries (max 1 o.maxRange)).reverse.take (o.maxQueries - got.length)).map ([·]) ∧
      shares who (optimize { o with maxAddresses := addresses } index inputs).queries =
        got' ++ ((Range.splitAll asker.retries (max 1 o.maxRange)).reverse.take (o.maxQueries - got'.length)).map
          ([·]) := by
  obtain ⟨got, hturns, hgiven⟩ := h.shares_eq (o := { o with maxAddresses := 1 }) index ha
  obtain ⟨got', hturns', hgiven'⟩ := h.shares_eq (o := { o with maxAddresses := addresses }) index ha
  have hones : ∀ share ∈ got, share.length = 1 := fun share hs =>
    length_eq_one_of_mem_shares (Nat.le_refl 1) (hgiven ▸ List.mem_append_left _ hs)
  obtain ⟨hcount, hsub⟩ := hturns.gives_ones hturns' (Nat.le_refl 0) hones
  have hcap := hturns.add_length_le (Nat.zero_le _)
  rw [Nat.zero_add] at hcap
  rw [Nat.zero_add, Nat.zero_add] at hcount
  rw [(merged_retries ha).takePieces_newestFirst] at hgiven hgiven'
  exact ⟨got, got', hcount, hcap, hsub, hgiven, hgiven'⟩

/-- What each entity gets without batching it gets with it, new or retried. -/
theorem Only.given_subset_batched (h : Only who inputs input) (addresses : Nat) :
    values (given who (optimize { o with maxAddresses := 1 } index inputs).queries) ⊆
      values (given who (optimize { o with maxAddresses := addresses } index inputs).queries) := by
  by_cases hv : input.full.valid = true
  · obtain ⟨asker, ha⟩ := exists_asker? (o := o) hv
    obtain ⟨got, got', hcount, -, hsub, hgiven, hgiven'⟩ := h.shares_batched addresses index ha
    rw [given, given, hgiven, hgiven', List.flatten_append, List.flatten_append, flatten_map_singleton,
      flatten_map_singleton]
    exact Range.values_subset (append_subset_append hsub (List.take_subset_take_left _ (by omega)))
  · rw [h.given_of_invalid hv, Range.values_nil]
    exact Set.empty_subset _

/-- With batching an entity takes part in no more queries. -/
theorem Only.length_shares_batched (h : Only who inputs input) (addresses : Nat) :
    (shares who (optimize { o with maxAddresses := addresses } index inputs).queries).length ≤
      (shares who (optimize { o with maxAddresses := 1 } index inputs).queries).length := by
  by_cases hv : input.full.valid = true
  · obtain ⟨asker, ha⟩ := exists_asker? (o := o) hv
    obtain ⟨got, got', hcount, hcap, -, hgiven, hgiven'⟩ := h.shares_batched addresses index ha
    rw [hgiven, hgiven', List.length_append, List.length_append, List.length_map, List.length_map, List.length_take,
      List.length_take]
    omega
  · rw [h.shares_of_invalid hv, h.shares_of_invalid hv]

/-- Whatever a plan that lists one address a query serves to an input or to an entity, new or retried, is served
to it by the plan with any other cap on addresses. -/
theorem batching_serves_no_less (o : Options) (addresses : Nat) (index : Index α) (inputs : List (PlanInput ε α)) :
    (∀ i input, inputs[i]? = some input → values (givenAt { o with maxAddresses := 1 } index inputs i) ⊆
      values (givenAt { o with maxAddresses := addresses } index inputs i)) ∧
    ∀ e, servedTo e (optimize { o with maxAddresses := 1 } index inputs).queries ⊆
      servedTo e (optimize { o with maxAddresses := addresses } index inputs).queries := by
  have hplaces : ∀ i input, inputs[i]? = some input →
      values (givenAt { o with maxAddresses := 1 } index inputs i) ⊆
        values (givenAt { o with maxAddresses := addresses } index inputs i) :=
    fun i input hi => (only_placed hi).given_subset_batched addresses
  refine ⟨hplaces, fun e x hx => ?_⟩
  obtain ⟨i, input, hi, he, hx⟩ := mem_servedTo_optimize.1 hx
  exact mem_servedTo_optimize.2 ⟨i, input, hi, he, hplaces i input hi hx⟩

/-- Two contracts that lack the same two blocks around a third one. -/
def twoGaps : List (PlanInput String UInt64) :=
  [⟨"pool", ⟨5, 7⟩, [⟨6, 6⟩], []⟩, ⟨"vault", ⟨5, 7⟩, [⟨6, 6⟩], []⟩]

/-- Four queries of one contract each become one query of both. -/
theorem batching_serves_no_less_twoGaps :
    ({5, 7} : Set UInt64) ⊆ servedTo "pool" (optimize ⟨1, 4, 2⟩ (.fixed [⟨0, 9⟩]) twoGaps).queries ∧
    ({5, 7} : Set UInt64) ⊆ servedTo "pool" (optimize ⟨2, 4, 2⟩ (.fixed [⟨0, 9⟩]) twoGaps).queries ∧
    (optimize ⟨2, 4, 2⟩ (.fixed [⟨0, 9⟩]) twoGaps).queries.length = 1 := by
  have hqueries : (optimize ⟨1, 4, 2⟩ (.fixed [⟨0, 9⟩]) twoGaps).queries =
      [.single "pool" ⟨7, 7⟩, .single "pool" ⟨5, 5⟩, .single "vault" ⟨7, 7⟩, .single "vault" ⟨5, 5⟩] := by
    cbv
  have halone : ({5, 7} : Set UInt64) ⊆ servedTo "pool" (optimize ⟨1, 4, 2⟩ (.fixed [⟨0, 9⟩]) twoGaps).queries := by
    rw [hqueries]
    rintro x (rfl | rfl)
    · exact ⟨.single "pool" ⟨5, 5⟩, by simp, ("pool", [⟨5, 5⟩]), List.mem_singleton_self _, rfl, by decide⟩
    · exact ⟨.single "pool" ⟨7, 7⟩, by simp, ("pool", [⟨7, 7⟩]), List.mem_singleton_self _, rfl, by decide⟩
  exact ⟨halone, halone.trans ((batching_serves_no_less ⟨1, 4, 2⟩ 2 (.fixed [⟨0, 9⟩]) twoGaps).2 "pool"),
    by cbv⟩

end Backfill.Plan
