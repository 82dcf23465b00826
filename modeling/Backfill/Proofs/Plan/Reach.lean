import Backfill.Proofs.Plan.Exactness

/-!
# What reaches an entity

An entity may be in several inputs. What the queries of a plan serve to it is what the places of these inputs
get.
-/

namespace Backfill

open Range (values)

variable {ε δ α : Type} [Axis α]

theorem Query.served_rename (f : ε → δ) (q : Query ε α) :
    (q.rename f).served = q.served.map fun p => (f p.1, p.2) := by
  cases q with
  | single e r => rfl
  | shared es r needs => simp only [Query.rename, Query.served, List.map_map]; rfl

namespace Plan

/-- What queries serve to an entity. -/
def servedTo (e : ε) (queries : List (Query ε α)) : Set α :=
  {x | ∃ q ∈ queries, ∃ p ∈ q.served, p.1 = e ∧ x ∈ values p.2}

theorem mem_values_given {who : ε → Bool} {queries : List (Query ε α)} {x : α} :
    x ∈ values (given who queries) ↔ ∃ q ∈ queries, ∃ p ∈ q.served, who p.1 = true ∧ x ∈ values p.2 := by
  simp only [given, shares, Query.shares, Range.mem_values, List.mem_flatten, List.mem_flatMap, List.mem_map,
    List.mem_filter]
  constructor
  · rintro ⟨r, ⟨share, ⟨q, hq, p, ⟨hp, hwho⟩, rfl⟩, hr⟩, hx⟩
    exact ⟨q, hq, p, hp, hwho, r, hr, hx⟩
  · rintro ⟨q, hq, p, hp, hwho, r, hr, hx⟩
    exact ⟨r, ⟨p.2, ⟨q, hq, p, ⟨hp, hwho⟩, rfl⟩, hr⟩, hx⟩

variable [DecidableEq α] [DiscreteAxis α]

/-- An entity gets what the places of its inputs get. -/
theorem mem_servedTo_optimize {o : Options} {index : Index α} {inputs : List (PlanInput ε α)} {e : ε}
    {x : α} : x ∈ servedTo e (optimize o index inputs).queries ↔
      ∃ i input, inputs[i]? = some input ∧ input.entity = e ∧ x ∈ values (givenAt o index inputs i) := by
  rw [← optimize_placed]
  constructor
  · rintro ⟨named, hnamed, entry, hentry, rfl, hx⟩
    obtain ⟨q, hq, rfl⟩ := List.mem_map.1 hnamed
    rw [Query.served_rename] at hentry
    obtain ⟨p, hp, rfl⟩ := List.mem_map.1 hentry
    obtain ⟨other, ho, -, hentity⟩ := mem_entities_optimize hq ((sound_optimize hq).listed p hp)
    obtain ⟨⟨input, i⟩, hi, rfl⟩ := List.mem_map.1 ho
    refine ⟨i, input, List.mk_mem_zipIdx_iff_getElem?.1 hi, congrArg Prod.fst hentity, ?_⟩
    exact mem_values_given.2 ⟨q, hq, p, hp, beq_iff_eq.2 (congrArg Prod.snd hentity).symm, hx⟩
  · rintro ⟨i, input, hi, rfl, hx⟩
    obtain ⟨q, hq, p, hp, hplace, hxp⟩ := mem_values_given.1 hx
    obtain ⟨other, ho, -, hentity⟩ := mem_entities_optimize hq ((sound_optimize hq).listed p hp)
    obtain ⟨⟨input', j⟩, hj, rfl⟩ := List.mem_map.1 ho
    obtain rfl : j = i := (congrArg Prod.snd hentity).trans (eq_of_beq hplace)
    obtain rfl : input' = input :=
      Option.some.inj ((List.mk_mem_zipIdx_iff_getElem?.1 hj).symm.trans hi)
    refine ⟨q.rename Prod.fst, List.mem_map_of_mem hq, (p.1.1, p.2), ?_, (congrArg Prod.fst hentity).symm, hxp⟩
    rw [Query.served_rename]
    exact List.mem_map_of_mem hp

end Plan

end Backfill
