import Backfill.Proofs.Coverage

/-!
# Flushes of one sequence of outcomes

Timers decide where one flush of outcomes ends and the next one begins. Within a flush a failure counts beside a
success, across flushes the later outcome counts. So a coarser cut of the same sequence covers the same values, and
it retries all that a finer one retries and beyond that only what is covered. With one outcome a flush the last
outcome that mentions a value decides.
-/

namespace Backfill.Coverage

open Range (values)

/-- Outcomes that are merged at once, and when they are. -/
structure Flush (α : Type) where
  outcomes : List (Range α × Bool)
  now : Timestamp

/-- Two cuts of one sequence of outcomes: each flush of the first one joins neighbouring flushes of the second. -/
inductive Joins {α : Type} : List (Flush α) → List (Flush α) → Prop
  | nil : Joins [] []
  | cons {joined : Flush α} {group coarse fine : List (Flush α)} : group ≠ [] →
    joined.outcomes = group.flatMap (·.outcomes) → Joins coarse fine → Joins (joined :: coarse) (group ++ fine)

variable {α : Type} [Axis α]

/-- Coverage after flushes, one after another. -/
def updateAll (c : Coverage α) (flushes : List (Flush α)) : Coverage α :=
  flushes.foldl (fun c f => c.update f.outcomes f.now) c

theorem updateAll_cons (c : Coverage α) (f : Flush α) (flushes : List (Flush α)) :
    c.updateAll (f :: flushes) = (c.update f.outcomes f.now).updateAll flushes := rfl

theorem updateAll_append (c : Coverage α) (a b : List (Flush α)) :
    c.updateAll (a ++ b) = (c.updateAll a).updateAll b := List.foldl_append

omit [Axis α] in
theorem succeeded_append (a b : List (Range α × Bool)) : succeeded (a ++ b) = succeeded a ++ succeeded b := by
  simp [succeeded]

omit [Axis α] in
theorem failed_append (a b : List (Range α × Bool)) : failed (a ++ b) = failed a ++ failed b := by
  simp [failed]

/-! ## Coarser and finer cuts -/

/-- Both cover the same, and what the first retries beyond the second is covered. -/
structure Retains (c c' : Coverage α) : Prop where
  covered : c.covered = c'.covered
  retried : values c'.toRetry ⊆ values c.toRetry
  extra : values c.toRetry ⊆ values c'.toRetry ∪ values c.covered

theorem Retains.refl (c : Coverage α) : Retains c c := ⟨rfl, subset_rfl, Set.subset_union_left⟩

theorem Retains.trans {c c' c'' : Coverage α} (h : Retains c c') (h' : Retains c' c'') : Retains c c'' where
  covered := h.covered.trans h'.covered
  retried := h'.retried.trans h.retried
  extra := by
    intro x hx
    rcases h.extra hx with hx | hx
    · rw [h.covered]
      exact h'.extra hx
    · exact Or.inr hx

variable [DiscreteAxis α]

theorem Retains.update {c c' : Coverage α} (h : Retains c c') (outcomes : List (Range α × Bool))
    (now now' : Timestamp) : Retains (c.update outcomes now) (c'.update outcomes now') where
  covered := by rw [covered_update, covered_update, h.covered]
  retried := by
    rw [values_toRetry_update, values_toRetry_update]
    exact Set.union_subset_union_left _ (Set.sdiff_subset_sdiff_left h.retried)
  extra := by
    rw [values_toRetry_update, values_toRetry_update, values_covered_update]
    rintro x (⟨hx, hleft⟩ | hfailed)
    · rcases h.extra hx with hx | hx
      · exact Or.inl (Or.inl ⟨hx, hleft⟩)
      · exact Or.inr (Or.inl hx)
    · exact Or.inl (Or.inr hfailed)

/-- Two sets of outcomes at once retain what they do one after the other: only a failure of the first set that the
second one makes up for is retried at once and not retried after both. -/
theorem retains_append (c : Coverage α) (a b : List (Range α × Bool)) (now early late : Timestamp) :
    Retains (c.update (a ++ b) now) ((c.update a early).update b late) where
  covered := by
    rw [covered_update, covered_update, covered_update, succeeded_append, Range.merge_eq_iff]
    simp only [Range.values_append, Range.values_merge, Set.union_assoc]
  retried := by
    simp only [values_toRetry_update, succeeded_append, failed_append, Range.values_append]
    rintro x (⟨⟨hx, ha⟩ | hfailed, hb⟩ | hfailed)
    · exact Or.inl ⟨hx, fun hab => hab.elim ha hb⟩
    · exact Or.inr (Or.inl hfailed)
    · exact Or.inr (Or.inr hfailed)
  extra := by
    simp only [values_toRetry_update, values_covered_update, succeeded_append, failed_append, Range.values_append]
    rintro x (⟨hx, hab⟩ | hfailed | hfailed)
    · exact Or.inl (Or.inl ⟨Or.inl ⟨hx, fun ha => hab (Or.inl ha)⟩, fun hb => hab (Or.inr hb)⟩)
    · by_cases hb : x ∈ values (succeeded b)
      · exact Or.inr (Or.inr (Or.inr hb))
      · exact Or.inl (Or.inl ⟨Or.inr hfailed, hb⟩)
    · exact Or.inl (Or.inr hfailed)

theorem retains_joined (c : Coverage α) {group : List (Flush α)} (hgroup : group ≠ []) (now : Timestamp) :
    Retains (c.update (group.flatMap (·.outcomes)) now) (c.updateAll group) := by
  induction group generalizing c with
  | nil => exact absurd rfl hgroup
  | cons f rest ih =>
      rw [List.flatMap_cons, updateAll_cons]
      cases rest with
      | nil =>
          rw [List.flatMap_nil, List.append_nil]
          exact (Retains.refl c).update f.outcomes now f.now
      | cons g rest =>
          exact (retains_append c f.outcomes _ now f.now now).trans (ih _ (List.cons_ne_nil g rest))

theorem Retains.updateAll {coarse fine : List (Flush α)} (hcuts : Joins coarse fine) {c c' : Coverage α}
    (h : Retains c c') : Retains (c.updateAll coarse) (c'.updateAll fine) := by
  induction hcuts generalizing c c' with
  | nil => exact h
  | @cons joined group coarse fine hgroup hjoined _ ih =>
      rw [updateAll_cons, updateAll_append]
      refine ih ?_
      rw [hjoined]
      exact (h.update _ joined.now joined.now).trans (retains_joined c' hgroup joined.now)

/-! ## One outcome a flush -/

/-- Some outcome mentions the value, and the last one that does is a failure. -/
def LastFailed (x : α) (outcomes : List (Range α × Bool)) : Prop :=
  ∃ before r after, outcomes = before ++ (r, false) :: after ∧ x ∈ r ∧ x ∉ values (after.map (·.1))

omit [DiscreteAxis α] in
theorem lastFailed_cons {x : α} {r : Range α} {ok : Bool} {rest : List (Range α × Bool)} :
    LastFailed x ((r, ok) :: rest) ↔
      LastFailed x rest ∨ (x ∈ r ∧ ok = false ∧ x ∉ values (rest.map (·.1))) := by
  constructor
  · rintro ⟨before, s, after, heq, hx, hafter⟩
    cases before with
    | nil =>
        cases heq
        exact Or.inr ⟨hx, rfl, hafter⟩
    | cons o before =>
        cases heq
        exact Or.inl ⟨before, s, after, rfl, hx, hafter⟩
  · rintro (⟨before, s, after, rfl, hx, hafter⟩ | ⟨hx, rfl, hafter⟩)
    · exact ⟨(r, ok) :: before, s, after, rfl, hx, hafter⟩
    · exact ⟨[], r, rest, rfl, hx, hafter⟩

omit [DiscreteAxis α] in
theorem LastFailed.mentioned {x : α} {outcomes : List (Range α × Bool)} (h : LastFailed x outcomes) :
    x ∈ values (outcomes.map (·.1)) := by
  obtain ⟨before, r, after, rfl, hx, -⟩ := h
  exact ⟨r, by simp, hx⟩

theorem mem_toRetry_update_one (c : Coverage α) (r : Range α) (ok : Bool) (now : Timestamp) {x : α} :
    x ∈ values (c.update [(r, ok)] now).toRetry ↔ (x ∈ r ∧ ok = false) ∨ (x ∉ r ∧ x ∈ values c.toRetry) := by
  rw [values_toRetry_update]
  cases ok with
  | false =>
      rw [show succeeded [(r, false)] = [] from rfl, show failed [(r, false)] = [r] from rfl, Range.values_nil,
        Set.sdiff_empty, Set.mem_union, Range.mem_values_singleton]
      tauto
  | true =>
      rw [show succeeded [(r, true)] = [r] from rfl, show failed [(r, true)] = [] from rfl, Range.values_nil,
        Set.union_empty, Set.mem_sdiff, Range.mem_values_singleton]
      simp [and_comm]

theorem mem_toRetry_updateAll_ones {outcomes : List (Range α × Bool)} {flushes : List (Flush α)}
    (hones : flushes.map (·.outcomes) = outcomes.map ([·])) (c : Coverage α) {x : α} :
    x ∈ values (c.updateAll flushes).toRetry ↔
      LastFailed x outcomes ∨ (x ∉ values (outcomes.map (·.1)) ∧ x ∈ values c.toRetry) := by
  induction outcomes generalizing flushes c with
  | nil =>
      obtain rfl := List.map_eq_nil_iff.1 hones
      have hnone : ¬ LastFailed x ([] : List (Range α × Bool)) := fun h => by simpa using h.mentioned
      simp [updateAll, hnone]
  | cons o rest ih =>
      obtain ⟨r, ok⟩ := o
      obtain ⟨f, flushes, rfl, hf, hones⟩ := List.map_eq_cons_iff.1 hones
      rw [updateAll_cons, ih hones, hf, mem_toRetry_update_one, lastFailed_cons, List.map_cons, Range.mem_values_cons]
      tauto

/-- Wherever a sequence of outcomes is cut, joining neighbouring flushes covers the same ranges, and retries all
that the finer cut retries and besides only covered blocks. When every outcome is a flush of its own, a block that
some outcome mentions is to be retried in the end exactly if the last one that does is a failure. -/
theorem joined_flushes_retain (c : Coverage UInt64) :
    (∀ coarse fine, Joins coarse fine →
      (c.updateAll coarse).covered = (c.updateAll fine).covered ∧
      values (c.updateAll fine).toRetry ⊆ values (c.updateAll coarse).toRetry ∧
      values (c.updateAll coarse).toRetry \ values (c.updateAll fine).toRetry ⊆
        values (c.updateAll coarse).covered) ∧
    ∀ outcomes flushes, flushes.map Flush.outcomes = outcomes.map ([·]) → ∀ x ∈ values (outcomes.map (·.1)),
      (x ∈ values (c.updateAll flushes).toRetry ↔ LastFailed x outcomes) := by
  refine ⟨fun coarse fine hcuts => ?_, fun outcomes flushes hones x hx => ?_⟩
  · have hretains := Retains.updateAll hcuts (Retains.refl c)
    refine ⟨hretains.covered, hretains.retried, ?_⟩
    rintro x ⟨hcoarse, hfine⟩
    exact (hretains.extra hcoarse).resolve_left hfine
  · rw [mem_toRetry_updateAll_ones hones]
    exact or_iff_left fun hnone => hnone.1 hx

/-- Blocks 5 and 6 fail, and then block 5 succeeds. -/
def madeUp : List (Range UInt64 × Bool) := [(⟨5, 6⟩, false), (⟨5, 5⟩, true)]

/-- Merged at once, block 5 is covered and to be retried; merged one after the other, it is covered only. -/
theorem joined_flushes_retain_madeUp :
    let start : Coverage UInt64 := Coverage.empty Timestamp.epoch
    let once : List (Flush UInt64) := [⟨madeUp, Timestamp.epoch⟩]
    let singly : List (Flush UInt64) := madeUp.map fun o => ⟨[o], Timestamp.epoch⟩
    Joins once singly ∧ 5 ∈ values (start.updateAll once).toRetry \ values (start.updateAll singly).toRetry ∧
      5 ∈ values (start.updateAll once).covered ∧ ¬ LastFailed 5 madeUp ∧ LastFailed 6 madeUp := by
  intro start once singly
  have hcuts : Joins once (singly ++ []) := .cons (by simp [singly, madeUp]) rfl .nil
  have hextra : 5 ∈ values (start.updateAll once).toRetry \ values (start.updateAll singly).toRetry :=
    ⟨by decide +kernel, by decide +kernel⟩
  have hlast := (joined_flushes_retain start).2 madeUp singly rfl
  refine ⟨hcuts, hextra, ((joined_flushes_retain start).1 once singly hcuts).2.2 hextra, ?_, ?_⟩
  · exact fun hfailed => hextra.2 ((hlast 5 (by decide)).2 hfailed)
  · exact (hlast 6 (by decide)).1 (by decide +kernel)

end Backfill.Coverage
