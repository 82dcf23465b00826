import Backfill.Proofs.Range.Split

/-!
# What is asked for next

What a range asks for are the newest pieces of what was never fetched, then the newest pieces of what failed in the
room that is left. So retries are asked for only beside all that was never fetched, and a limit that admits every
value defers nothing.
-/

namespace Backfill.Range

variable {α : Type} [Axis α]

/-- The values of a range that were never fetched: neither covered nor to be retried. -/
def unfetched (full : Range α) (covered toRetry : List (Range α)) : Set α :=
  values [full] \ (values covered ∪ values toRetry)

/-- The values of a range that are to be retried, covered or not. -/
def failedWithin (full : Range α) (toRetry : List (Range α)) : Set α := values toRetry ∩ values [full]

/-! ## Fresh pieces and retries -/

section Todo

variable [DiscreteAxis α] (full : Range α) (covered toRetry : List (Range α)) (length limit : Nat)

/-- An inverted range has nothing left and nothing to retry, so it needs no case of its own. -/
theorem todo_eq : todo full covered toRetry length limit =
    let fresh := takePieces (exclude [full] (covered ++ clip toRetry full)) length limit .newestFirst
    ⟨fresh, takePieces (clip toRetry full) length (limit - fresh.length) .newestFirst⟩ := by
  by_cases hv : full.valid = true
  · rw [todo, if_pos hv]
  · have hfull : ∀ x, x ∉ full := fun x hx => hv (valid_of_mem hx)
    have hleft : exclude [full] (covered ++ clip toRetry full) = [] := by
      apply (merged_exclude _ _).eq_nil
      simp [Set.eq_empty_iff_forall_notMem, hfull]
    have hretry : clip toRetry full = [] := by
      apply (merged_clip _ _).eq_nil
      simp [Set.eq_empty_iff_forall_notMem, hfull]
    rw [todo, if_neg hv, hleft, hretry]
    simp [takePieces, splitAll]

theorem fresh_todo : (todo full covered toRetry length limit).fresh =
    takePieces (exclude [full] (covered ++ clip toRetry full)) length limit .newestFirst := by
  rw [todo_eq]

theorem retries_todo : (todo full covered toRetry length limit).retries = takePieces (clip toRetry full) length
    (limit - (todo full covered toRetry length limit).fresh.length) .newestFirst := by
  rw [todo_eq]

theorem values_clip_full : values (clip toRetry full) = failedWithin full toRetry := by
  ext x
  simp [failedWithin]

theorem values_left :
    values (exclude [full] (covered ++ clip toRetry full)) = unfetched full covered toRetry := by
  rw [values_exclude, values_append, values_clip_full]
  ext x
  simp only [unfetched, failedWithin, Set.mem_sdiff, Set.mem_union, Set.mem_inter_iff]
  tauto

theorem newest_fresh_todo :
    Newest length (todo full covered toRetry length limit).fresh (unfetched full covered toRetry) := by
  rw [fresh_todo, ← values_left]
  exact (merged_exclude _ _).newest_takePieces length limit

theorem newest_retries_todo :
    Newest length (todo full covered toRetry length limit).retries (failedWithin full toRetry) := by
  rw [retries_todo, ← values_clip_full]
  exact (merged_clip _ _).newest_takePieces length _

theorem length_fresh_todo_le : (todo full covered toRetry length limit).fresh.length ≤ limit := by
  rw [fresh_todo]
  exact length_takePieces_le _ length limit .newestFirst

theorem length_retries_todo_le : (todo full covered toRetry length limit).retries.length ≤
    limit - (todo full covered toRetry length limit).fresh.length := by
  rw [retries_todo]
  exact length_takePieces_le _ length _ .newestFirst

theorem length_all_todo_le : (todo full covered toRetry length limit).all.length ≤ limit := by
  have hfresh := length_fresh_todo_le full covered toRetry length limit
  have hretries := length_retries_todo_le full covered toRetry length limit
  rw [Todo.all, List.length_append]
  omega

theorem separate_all_todo : Separate (todo full covered toRetry length limit).all := by
  have hfresh := newest_fresh_todo full covered toRetry length limit
  have hretries := newest_retries_todo full covered toRetry length limit
  refine separate_append.2 ⟨hfresh.separate, hretries.separate, fun x hx hx' => ?_⟩
  exact (hfresh.subset hx).2 (Or.inr (hretries.subset hx').1)

variable {full covered toRetry length limit}

theorem values_fresh_todo_of_room (h : (todo full covered toRetry length limit).fresh.length < limit) :
    values (todo full covered toRetry length limit).fresh = unfetched full covered toRetry := by
  rw [fresh_todo] at h ⊢
  rw [← values_left]
  exact (merged_exclude _ _).values_takePieces_of_room h

theorem values_fresh_todo_of_retries (h : (todo full covered toRetry length limit).retries ≠ []) :
    values (todo full covered toRetry length limit).fresh = unfetched full covered toRetry := by
  have hretries := List.length_pos_iff.2 h
  have hroom := length_retries_todo_le full covered toRetry length limit
  exact values_fresh_todo_of_room (by omega)

/-- A limit of at least the number of values defers nothing: there are no more pieces than values. -/
theorem values_all_todo [Finite α]
    (h : (unfetched full covered toRetry).ncard + (failedWithin full toRetry).ncard ≤ limit) :
    values (todo full covered toRetry length limit).all =
      unfetched full covered toRetry ∪ failedWithin full toRetry := by
  have hnewest := newest_fresh_todo full covered toRetry length limit
  have hfresh : values (todo full covered toRetry length limit).fresh = unfetched full covered toRetry := by
    rw [fresh_todo, ← values_left]
    exact (merged_exclude _ _).values_takePieces (by rw [values_left]; omega)
  have hcount := length_le_ncard hnewest.valid hnewest.separate
  rw [hfresh] at hcount
  have hretries : values (todo full covered toRetry length limit).retries = failedWithin full toRetry := by
    rw [retries_todo, ← values_clip_full]
    exact (merged_clip _ _).values_takePieces (by rw [values_clip_full]; omega)
  rw [Todo.all, values_append, hfresh, hretries]

end Todo

/-! ## Blocks -/

theorem Newest.ncard_le {length : Nat} {pieces : List (Range UInt64)} {whole : Set UInt64}
    (h : Newest length pieces whole) : ∀ p ∈ pieces, {x | x ∈ p}.ncard ≤ max length 1 :=
  fun p hp => ncard_blocks_le (h.short p hp)

theorem Newest.pairwise_lt {length : Nat} {pieces : List (Range UInt64)} {whole : Set UInt64}
    (h : Newest length pieces whole) : pieces.Pairwise fun p q => q.last < p.first :=
  h.descending.imp word_lt_iff_rank.2

theorem Newest.lt_of_notMem {length : Nat} {pieces : List (Range UInt64)} {whole : Set UInt64}
    (h : Newest length pieces whole) : ∀ x ∈ whole, x ∉ values pieces → ∀ y ∈ values pieces, x < y := by
  intro x hx hout y hy
  rw [word_lt_iff_rank]
  by_contra hle
  rcases Int.lt_or_eq_of_le (Int.not_lt.1 hle) with hlt | heq
  · exact hout (h.keepsLater y hy x hx hlt)
  · exact hout (Axis.rank_inj _ _ heq ▸ hy)

/-- What a range is to be asked for next keeps to the limits and never overlaps. Fresh pieces lie in what was never
fetched and retries in what failed before, the newest first in either list, and what either leaves out is older than
all that it takes. Something is retried only beside all that was never fetched, and a limit of at least as many as
there are blocks leaves nothing out. An inverted range holds no block to ask for. -/
theorem todo_restricts (full : Range UInt64) (covered toRetry : List (Range UInt64)) (length limit : Nat) :
    let due := todo full covered toRetry length limit
    let new := unfetched full covered toRetry
    let failed := failedWithin full toRetry
    due.all.length ≤ limit ∧
    (∀ p ∈ due.all, p.valid = true ∧ {x | x ∈ p}.ncard ≤ max length 1) ∧
    Separate due.all ∧
    (values due.fresh ⊆ new ∧ (due.fresh.Pairwise fun p q => q.last < p.first) ∧
      ∀ x ∈ new, x ∉ values due.fresh → ∀ y ∈ values due.fresh, x < y) ∧
    (values due.retries ⊆ failed ∧ (due.retries.Pairwise fun p q => q.last < p.first) ∧
      ∀ x ∈ failed, x ∉ values due.retries → ∀ y ∈ values due.retries, x < y) ∧
    (due.retries ≠ [] → values due.fresh = new) ∧
    (new.ncard + failed.ncard ≤ limit → values due.all = new ∪ failed) := by
  intro due new failed
  have hfresh : Newest length due.fresh new := newest_fresh_todo full covered toRetry length limit
  have hretries : Newest length due.retries failed := newest_retries_todo full covered toRetry length limit
  refine ⟨length_all_todo_le full covered toRetry length limit, ?_, separate_all_todo full covered toRetry length limit,
    ⟨hfresh.subset, hfresh.pairwise_lt, hfresh.lt_of_notMem⟩,
    ⟨hretries.subset, hretries.pairwise_lt, hretries.lt_of_notMem⟩, values_fresh_todo_of_retries, values_all_todo⟩
  intro p hp
  rcases List.mem_append.1 hp with hp | hp
  · exact ⟨hfresh.valid p hp, hfresh.ncard_le p hp⟩
  · exact ⟨hretries.valid p hp, hretries.ncard_le p hp⟩

/-- What failed is retried though it is covered, in the room that the fresh pieces leave. -/
example : todo (⟨1, 1000⟩ : Range UInt64) [⟨900, 1000⟩] [⟨901, 909⟩] 300 4 =
    ⟨[⟨601, 899⟩, ⟨301, 600⟩, ⟨1, 300⟩], [⟨901, 909⟩]⟩ := by cbv

end Backfill.Range
