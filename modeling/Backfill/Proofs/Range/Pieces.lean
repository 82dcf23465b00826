import Backfill.Range.Split
import Backfill.Proofs.Range.Count

/-!
# The pieces of one range

Cutting goes on, piece after piece, until one reaches the end of the range. Every piece but the last is whole, each
begins one step after the one before ends, and the range is bounded, so the end is always reached: the pieces hold
exactly the values of the range.
-/

namespace Backfill.Range

variable {α : Type} [Axis α]

/-- Cutting from `start` on until a piece reaches `last` gives these pieces, however many that takes. -/
inductive Cuts (length : Nat) (last : α) : α → List (Range α) → Prop
  | done {start : α} : nextStart? length last start = none →
      Cuts length last start [pieceAt length last start]
  | more {start later : α} {pieces : List (Range α)} : nextStart? length last start = some later →
      Cuts length last later pieces → Cuts length last start (pieceAt length last start :: pieces)

/-! ## One piece -/

theorem mem_pieceAt {length : Nat} {last start x : α} : x ∈ pieceAt length last start ↔
    Axis.rank start ≤ Axis.rank x ∧ Axis.rank x ≤ Axis.rank (pieceAt length last start).last := mem_iff_rank

theorem rank_pieceAt_le (length : Nat) (last start : α) :
    Axis.rank (pieceAt length last start).last ≤ Axis.rank last := by
  simp only [pieceAt, Axis.rank_earlier]
  omega

theorem last_pieceAt {length : Nat} {last start : α} (h : nextStart? length last start = none) :
    (pieceAt length last start).last = last := by
  have hle := rank_pieceAt_le length last start
  simp only [nextStart?, Axis.le_iff_rank] at h
  split at h
  · exact Axis.rank_inj _ _ (by omega)
  · cases h

theorem nextStart?_eq_none_iff {length : Nat} {last start : α} :
    nextStart? length last start = none ↔ Axis.rank last ≤ Axis.rank (Axis.advance start (length - 1)) := by
  simp only [nextStart?, pieceAt, Axis.le_iff_rank, Axis.rank_earlier, ite_eq_left_iff, reduceCtorEq, imp_false]
  omega

theorem nextStart?_eq_some_iff {length : Nat} {last start later : α} :
    nextStart? length last start = some later ↔ Axis.rank (Axis.advance start (length - 1)) < Axis.rank last ∧
      Axis.next (pieceAt length last start).last = later := by
  simp only [nextStart?, Axis.le_iff_rank]
  have hend : Axis.rank (pieceAt length last start).last =
      min (Axis.rank (Axis.advance start (length - 1))) (Axis.rank last) := Axis.rank_earlier ..
  split
  · exact ⟨nofun, fun h => by omega⟩
  · rw [Option.some.injEq]
    exact ⟨fun h => ⟨by omega, h⟩, fun h => h.2⟩

/-- A piece that ends before `last` was not cut off there. -/
theorem last_pieceAt_of_lt {length : Nat} {last start : α}
    (h : Axis.rank (Axis.advance start (length - 1)) < Axis.rank last) :
    (pieceAt length last start).last = Axis.advance start (length - 1) := Axis.earlier_of_le (Int.le_of_lt h)

/-- Splitting comes to an end. An inverted range is not cut at all. -/
def SplitEnds (r : Range α) (length : Nat) : Prop :=
  r.valid = true → ∃ pieces, Cuts (max length 1) r.last r.first pieces

variable [DiscreteAxis α]

theorem rank_le_pieceAt (length : Nat) {last start : α} (h : Axis.rank start ≤ Axis.rank last) :
    Axis.rank start ≤ Axis.rank (pieceAt length last start).last := by
  have : Axis.rank start ≤ Axis.rank (Axis.advance start (length - 1)) := rank_le_advance (by omega)
  simp only [pieceAt, Axis.rank_earlier]
  omega

theorem valid_pieceAt (length : Nat) {last start : α} (h : Axis.rank start ≤ Axis.rank last) :
    (pieceAt length last start).valid = true := valid_iff_rank.2 (rank_le_pieceAt length h)

theorem rank_pieceAt_sub_le (length : Nat) (last start : α) :
    Axis.rank (pieceAt length last start).last - Axis.rank start ≤ (length - 1 : Nat) := by
  have := rank_advance_le start (length - 1)
  simp only [pieceAt, Axis.rank_earlier]
  omega

theorem rank_nextStart {length : Nat} {last start later : α} (h : nextStart? length last start = some later) :
    Axis.rank later = Axis.rank (pieceAt length last start).last + 1 ∧ Axis.rank later ≤ Axis.rank last := by
  simp only [nextStart?, Axis.le_iff_rank] at h
  split at h
  · cases h
  · cases h
    have := rank_next_of_lt (a := (pieceAt length last start).last) (b := last) (by omega)
    omega

/-- A piece that another one follows is whole: the end of the axis did not cut it short. -/
theorem rank_pieceAt {length : Nat} {last start later : α} (hl : 0 < length)
    (h : nextStart? length last start = some later) :
    Axis.rank (pieceAt length last start).last = Axis.rank start + length - 1 := by
  have hnext := rank_nextStart h
  have hfull := rank_advance_eq (a := start) (b := last) (n := length - 1) (by
    by_contra hover
    have hreach : Axis.rank last ≤ Axis.rank (Axis.advance start (length - 1)) := rank_le_advance (by omega)
    simp only [pieceAt, Axis.rank_earlier] at hnext
    omega)
  simp only [pieceAt, Axis.rank_earlier] at hnext ⊢
  omega

/-! ## Cutting to the end -/

namespace Cuts

variable {length : Nat} {last start : α} {pieces : List (Range α)}

omit [DiscreteAxis α] in
theorem head?_eq (h : Cuts length last start pieces) : pieces.head?.map Range.first = some start := by
  cases h <;> rfl

omit [DiscreteAxis α] in
theorem ne_nil (h : Cuts length last start pieces) : pieces ≠ [] := by
  cases h <;> exact List.cons_ne_nil _ _

theorem mem_values (h : Cuts length last start pieces) (hs : Axis.rank start ≤ Axis.rank last) {x : α} :
    x ∈ values pieces ↔ Axis.rank start ≤ Axis.rank x ∧ Axis.rank x ≤ Axis.rank last := by
  induction h with
  | done hstop => rw [mem_values_singleton, mem_pieceAt, last_pieceAt hstop]
  | more hnext _ ih =>
      have hp := rank_le_pieceAt length hs
      obtain ⟨hlater, hle⟩ := rank_nextStart hnext
      rw [mem_values_cons, mem_pieceAt, ih hle]
      omega

theorem bounds (h : Cuts length last start pieces) (hs : Axis.rank start ≤ Axis.rank last) :
    ∀ p ∈ pieces, p.valid = true ∧ Axis.rank start ≤ Axis.rank p.first ∧
      Axis.rank p.last - Axis.rank p.first ≤ (length - 1 : Nat) := by
  induction h with
  | @done start _ =>
      exact List.forall_mem_singleton.2
        ⟨valid_pieceAt length hs, Int.le_refl _, rank_pieceAt_sub_le length last start⟩
  | @more start later pieces hnext _ ih =>
      have hp := rank_le_pieceAt length hs
      obtain ⟨hlater, hle⟩ := rank_nextStart hnext
      refine List.forall_mem_cons.2
        ⟨⟨valid_pieceAt length hs, Int.le_refl _, rank_pieceAt_sub_le length last start⟩, fun p hp => ?_⟩
      obtain ⟨hv, hfirst, hlength⟩ := ih hle p hp
      exact ⟨hv, by omega, hlength⟩

theorem ascending (h : Cuts length last start pieces) (hs : Axis.rank start ≤ Axis.rank last) :
    pieces.Pairwise Below := by
  induction h with
  | done => exact List.pairwise_singleton _ _
  | more hnext hrest ih =>
      obtain ⟨hlater, hle⟩ := rank_nextStart hnext
      refine List.pairwise_cons.2 ⟨fun p hp => ?_, ih hle⟩
      have := (hrest.bounds hle p hp).2.1
      unfold Below
      omega

/-- Each piece begins one step after the one before ends. -/
theorem consecutive (h : Cuts length last start pieces) :
    pieces.IsChain fun p q => Axis.rank q.first = Axis.rank p.last + 1 := by
  induction h with
  | done => exact List.isChain_singleton _
  | more hnext hrest ih =>
      refine List.isChain_cons.2 ⟨fun q hq => ?_, ih⟩
      have hfirst := hrest.head?_eq
      rw [hq, Option.map_some, Option.some.injEq] at hfirst
      rw [hfirst]
      exact (rank_nextStart hnext).1

/-- Every piece but the last is whole. -/
theorem whole (h : Cuts length last start pieces) (hl : 0 < length) :
    ∀ p ∈ pieces.dropLast, Axis.rank p.last = Axis.rank p.first + length - 1 := by
  induction h with
  | done => simp
  | more hnext hrest ih =>
      rw [List.dropLast_cons_of_ne_nil hrest.ne_nil]
      exact List.forall_mem_cons.2 ⟨rank_pieceAt hl hnext, ih⟩

/-- The last piece holds the rest that whole pieces leave, and is whole when they leave none. -/
theorem getLast?_eq (h : Cuts length last start pieces) (hl : 0 < length) (hs : Axis.rank start ≤ Axis.rank last) :
    ∃ p, pieces.getLast? = some p ∧ p.last = last ∧
      Axis.rank last - Axis.rank p.first = (Axis.rank last - Axis.rank start) % length := by
  induction h with
  | @done start hstop =>
      have hend := last_pieceAt hstop
      have hshort := rank_pieceAt_sub_le length last start
      rw [hend] at hshort
      refine ⟨pieceAt length last start, rfl, hend, ?_⟩
      change Axis.rank last - Axis.rank start = _
      rw [Int.emod_eq_of_lt (by omega) (by omega)]
  | @more start later pieces hnext _ ih =>
      have hfull := rank_pieceAt hl hnext
      obtain ⟨hlater, hle⟩ := rank_nextStart hnext
      obtain ⟨p, hp, hend, hrest⟩ := ih hle
      have hleft : Axis.rank last - Axis.rank later = Axis.rank last - Axis.rank start - length := by omega
      refine ⟨p, by rw [List.getLast?_cons, hp]; rfl, hend, ?_⟩
      rw [hrest, hleft, Int.sub_emod_right]

end Cuts

/-! ## The pieces of a range -/

section Ends

variable {length : Nat} {last start : α} {pieces : List (Range α)}

omit [DiscreteAxis α]

theorem repeatM_cutOnce (cut : List (Range α)) (start : α) :
    repeatM (m := Id) (cutOnce length last) (cut, start) =
      (nextStart? length last start).elim (pieceAt length last start :: cut).reverse
        fun later => repeatM (m := Id) (cutOnce length last) (pieceAt length last start :: cut, later) := by
  rw [repeatM_eq_of_monadTail]
  cases h : nextStart? length last start with
  | none =>
      have hturn : cutOnce length last (cut, start) = .inr (pieceAt length last start :: cut).reverse := by
        rw [cutOnce, h, Option.elim_none]
      rw [repeatM.body, hturn]
      rfl
  | some later =>
      have hturn : cutOnce length last (cut, start) = .inl (pieceAt length last start :: cut, later) := by
        rw [cutOnce, h, Option.elim_some]
      rw [repeatM.body, hturn]
      rfl

theorem Cuts.cutOn_eq (h : Cuts length last start pieces) : cutOn length last start = pieces := by
  -- the pieces so far stay general
  suffices hloop : ∀ cut : List (Range α),
      repeatM (m := Id) (cutOnce length last) (cut, start) = cut.reverse ++ pieces from hloop []
  induction h with
  | done hstop =>
      intro cut
      rw [repeatM_cutOnce, hstop, Option.elim_none, List.reverse_cons]
  | more hnext _ ih =>
      intro cut
      rw [repeatM_cutOnce, hnext, Option.elim_some, ih, List.reverse_cons, List.append_assoc, List.singleton_append]

/-- However many pieces are made by recursion, they are those that cutting to the end makes. -/
theorem Cuts.piecesFrom_eq (h : Cuts length last start pieces) (fuel : Nat) :
    piecesFrom length last fuel start = pieces := by
  induction fuel generalizing start pieces with
  | zero => exact h.cutOn_eq
  | succ fuel ih =>
      rw [piecesFrom]
      cases h with
      | done hstop => rw [hstop]
      | more hnext hrest =>
          rw [hnext]
          exact congrArg _ (ih hrest)

theorem Cuts.split_eq {r : Range α} (hv : r.valid = true) (h : Cuts (max length 1) r.last r.first pieces) :
    split r length = pieces := by
  rw [split, if_pos hv, h.piecesFrom_eq]

theorem SplitEnds.cuts {r : Range α} (h : SplitEnds r length) (hv : r.valid = true) :
    Cuts (max length 1) r.last r.first (split r length) := by
  obtain ⟨pieces, hcuts⟩ := h hv
  rwa [hcuts.split_eq hv]

end Ends

theorem cuts_piecesFrom {length fuel : Nat} {last start : α} (hs : Axis.rank start ≤ Axis.rank last)
    (hf : Axis.rank last - Axis.rank start < fuel) : Cuts length last start (piecesFrom length last fuel start) := by
  induction fuel generalizing start with
  | zero => omega
  | succ fuel ih =>
      have hp := rank_le_pieceAt length hs
      rw [piecesFrom]
      cases h : nextStart? length last start with
      | none => exact .done h
      | some later =>
          -- the next piece begins later, so fewer ranks are left for it
          obtain ⟨hlater, hle⟩ := rank_nextStart h
          exact .more h (ih hle (by omega))

theorem cuts_split {r : Range α} (hv : r.valid = true) (length : Nat) :
    Cuts (max length 1) r.last r.first (split r length) := by
  rw [split, if_pos hv]
  exact cuts_piecesFrom (valid_iff_rank.1 hv) (by omega)

omit [DiscreteAxis α] in
theorem split_of_not_valid {r : Range α} (hv : ¬ r.valid = true) (length : Nat) : split r length = [] := if_neg hv

theorem mem_values_split {r : Range α} (length : Nat) {x : α} : x ∈ values (split r length) ↔ x ∈ r := by
  by_cases hv : r.valid = true
  · rw [(cuts_split hv length).mem_values (valid_iff_rank.1 hv), mem_iff_rank]
  · rw [split_of_not_valid hv, values_nil]
    exact ⟨False.elim, fun hx => hv (valid_of_mem hx)⟩

theorem mem_split {r p : Range α} {length : Nat} (hp : p ∈ split r length) :
    p.valid = true ∧ Axis.rank p.last - Axis.rank p.first < (max length 1 : Nat) := by
  by_cases hv : r.valid = true
  · obtain ⟨hpv, -, hlength⟩ := (cuts_split hv length).bounds (valid_iff_rank.1 hv) p hp
    exact ⟨hpv, by omega⟩
  · rw [split_of_not_valid hv] at hp
    cases hp

theorem below_split (r : Range α) (length : Nat) : (split r length).Pairwise Below := by
  by_cases hv : r.valid = true
  · exact (cuts_split hv length).ascending (valid_iff_rank.1 hv)
  · rw [split_of_not_valid hv]
    exact .nil

theorem subset_of_mem_split {r p : Range α} {length : Nat} (hp : p ∈ split r length) : ∀ x ∈ p, x ∈ r :=
  fun _ hx => (mem_values_split length).1 ⟨p, hp, hx⟩

theorem getLast?_split {r : Range α} (hv : r.valid = true) (length : Nat) :
    ∃ p, (split r length).getLast? = some p ∧ p.last = r.last ∧
      Axis.rank r.last - Axis.rank p.first = (Axis.rank r.last - Axis.rank r.first) % (max length 1 : Nat) :=
  (cuts_split hv length).getLast?_eq (by omega) (valid_iff_rank.1 hv)

/-- Cutting a range of blocks ends, whatever the bounds and the length: an inverted range has no pieces, and any
other falls into valid pieces of which the first begins where the range does, each next one begins at the block
after the one before, and the last ends where the range does. All but the last hold exactly the allowed number of
blocks, and the last holds no more; a length of 0 counts as 1. -/
theorem split_tiles (r : Range UInt64) (length : Nat) :
    (r.valid = false → split r length = []) ∧
    (r.valid = true →
      Cuts (max length 1) r.last r.first (split r length) ∧
      (∀ p ∈ split r length, p.valid = true ∧ {x | x ∈ p}.ncard ≤ max length 1) ∧
      (split r length).head?.map Range.first = some r.first ∧
      ((split r length).IsChain fun p q => q.first.toNat = p.last.toNat + 1) ∧
      (split r length).getLast?.map Range.last = some r.last ∧
      ∀ p ∈ (split r length).dropLast, {x | x ∈ p}.ncard = max length 1) := by
  refine ⟨fun hv => split_of_not_valid (by rw [hv]; decide) length, fun hv => ?_⟩
  have hcuts := cuts_split hv length
  refine ⟨hcuts, ?_, hcuts.head?_eq, ?_, ?_, ?_⟩
  · intro p hp
    obtain ⟨hpv, hlength⟩ := mem_split hp
    exact ⟨hpv, ncard_blocks_le hlength⟩
  · apply hcuts.consecutive.imp
    intro p q hpq
    rw [rank_word, rank_word] at hpq
    omega
  · obtain ⟨p, hp, hend, -⟩ := getLast?_split hv length
    rw [hp, Option.map_some, hend]
  · intro p hp
    have hwhole := hcuts.whole (by omega) p hp
    have hpv := valid_iff_rank.1 (mem_split (List.mem_of_mem_dropLast hp)).1
    rw [rank_word, rank_word] at hpv hwhole
    rw [ncard_blocks]
    omega

/-- At the last blocks neither bound nor step wraps around. -/
example : split (⟨18446744073709551613, 18446744073709551615⟩ : Range UInt64) 2 =
    [⟨18446744073709551613, 18446744073709551614⟩, ⟨18446744073709551615, 18446744073709551615⟩] := by decide

end Backfill.Range
