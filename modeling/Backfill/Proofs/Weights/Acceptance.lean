import Backfill.Proofs.Weights
import Backfill.Proofs.Range.Values

/-!
# Which weights and ranges are accepted

Ranges that tile the points from 1 on are accepted, and so are weights of which none is zero and whose sum a word
holds. The check of a next range counts up to the last point and stays there, so once a range ends at the last point
it also lets through further ranges of that point alone: the laid out ranges of further weights of one point. Apart
from these nothing else is accepted.
-/

namespace Backfill.Branches

variable {κ : Type}

/-! ## Rows of ranges -/

/-- Valid ranges of which the first begins at `start` and each next one where `next` leads from the end of the one
before. -/
structure Row (next : Nat → Nat) (start : Nat) (ranges : List (κ × Range UInt64)) : Prop where
  valid : ∀ p ∈ ranges, p.2.valid = true
  first : ∀ p ∈ ranges.head?, p.2.first.toNat = start
  follow : ranges.IsChain fun p q => q.2.first.toNat = next p.2.last.toNat

/-- The point after a point; the last one stays. -/
def pointAfter (n : Nat) : Nat := min (n + 1) maxWord

section Row

variable {next : Nat → Nat} {start : Nat} {p : κ × Range UInt64} {ranges : List (κ × Range UInt64)}

theorem row_nil : Row next start ([] : List (κ × Range UInt64)) := ⟨nofun, nofun, .nil⟩

theorem row_cons_iff : Row next start (p :: ranges) ↔
    p.2.valid = true ∧ p.2.first.toNat = start ∧ Row next (next p.2.last.toNat) ranges := by
  constructor
  · intro h
    obtain ⟨hhead, hfollow⟩ := List.isChain_cons.1 h.follow
    obtain ⟨hvalid, hrest⟩ := List.forall_mem_cons.1 h.valid
    exact ⟨hvalid, h.first p rfl, hrest, hhead, hfollow⟩
  · rintro ⟨hvalid, hfirst, hrest⟩
    refine ⟨List.forall_mem_cons.2 ⟨hvalid, hrest.valid⟩, ?_, List.isChain_cons.2 ⟨hrest.first, hrest.follow⟩⟩
    rintro _ ⟨⟩
    exact hfirst

theorem toNat_first_le (h : p.2.valid = true) : p.2.first.toNat ≤ p.2.last.toNat := by
  rwa [Range.valid, decide_eq_true_eq, UInt64.le_iff_toNat_le] at h

theorem toNat_le_maxWord (w : UInt64) : w.toNat ≤ maxWord := Nat.le_of_lt_succ w.toNat_lt

theorem checkTiles_eq_ok_iff (index : Nat) : checkTiles index start ranges = .ok () ↔ Row pointAfter start ranges := by
  induction ranges generalizing index start with
  | nil => exact ⟨fun _ => row_nil, fun _ => rfl⟩
  | cons p ranges ih =>
      obtain ⟨key, range⟩ := p
      rw [row_cons_iff, ← ih (index + 1), checkTiles]
      by_cases hvalid : range.valid = true
      · by_cases hfirst : range.first.toNat = start
        · simp [hvalid, hfirst, pointAfter]
        · simp only [hvalid, Bool.not_true, Bool.false_eq_true, ↓reduceIte, ne_eq, hfirst, not_false_eq_true]
          exact iff_of_false (by rintro ⟨⟩) fun h => h.2.1
      · simp only [hvalid, Bool.not_false, ↓reduceIte]
        exact iff_of_false (by rintro ⟨⟩) fun h => absurd h.1 (by decide)

/-- Past a range that ends at the last point there are ranges of that point only. -/
theorem Row.eq_last (h : Row pointAfter maxWord ranges) :
    ∀ p ∈ ranges, p.2.first.toNat = maxWord ∧ p.2.last.toNat = maxWord := by
  induction ranges with
  | nil => nofun
  | cons p ranges ih =>
      obtain ⟨hvalid, hfirst, hrest⟩ := row_cons_iff.1 h
      have hlast : p.2.last.toNat = maxWord :=
        Nat.le_antisymm (toNat_le_maxWord _) (hfirst ▸ toNat_first_le hvalid)
      rw [hlast] at hrest
      exact List.forall_mem_cons.2 ⟨⟨hfirst, hlast⟩, ih hrest⟩

end Row

/-! ## Tilings -/

/-- Ranges that tile the points from 1 on: there is one, each is valid, the first begins at 1 and each next one
exactly one past the end of the one before. -/
structure Tiles (ranges : List (κ × Range UInt64)) : Prop extends Row (· + 1) 1 ranges where
  ne_nil : ranges ≠ []

/-- Ranges of the last point alone, past a row that has reached this point. -/
structure Overrun (front surplus : List (κ × Range UInt64)) : Prop where
  point : ∀ p ∈ surplus, p.2.first.toNat = maxWord ∧ p.2.last.toNat = maxWord
  reached : surplus ≠ [] → ∃ p ∈ front.getLast?, p.2.last.toNat = maxWord

section Tilings

variable {start : Nat} {ranges front surplus : List (κ × Range UInt64)}

theorem Row.exists_overrun (h : Row pointAfter start ranges) :
    ∃ front surplus, ranges = front ++ surplus ∧ Row (· + 1) start front ∧ Overrun front surplus := by
  induction ranges generalizing start with
  | nil => exact ⟨[], [], rfl, row_nil, nofun, fun h => absurd rfl h⟩
  | cons p ranges ih =>
      obtain ⟨hvalid, hfirst, hrest⟩ := row_cons_iff.1 h
      by_cases hlast : p.2.last.toNat = maxWord
      · -- the row has reached the last point, and the rest is surplus
        rw [hlast] at hrest
        exact ⟨[p], ranges, rfl, row_cons_iff.2 ⟨hvalid, hfirst, row_nil⟩, hrest.eq_last, fun _ => ⟨p, rfl, hlast⟩⟩
      · have hnext : pointAfter p.2.last.toNat = p.2.last.toNat + 1 := by
          have := toNat_le_maxWord p.2.last
          rw [pointAfter]
          omega
        rw [hnext] at hrest
        obtain ⟨front, surplus, rfl, hfront, hover⟩ := ih hrest
        refine ⟨p :: front, surplus, rfl, row_cons_iff.2 ⟨hvalid, hfirst, hfront⟩, hover.point, fun hne => ?_⟩
        obtain ⟨q, hq, hreached⟩ := hover.reached hne
        exact ⟨q, by rw [List.getLast?_cons, hq]; rfl, hreached⟩

theorem Row.append_overrun (h : Row (· + 1) start front) (hne : front ≠ []) (hover : Overrun front surplus) :
    Row pointAfter start (front ++ surplus) := by
  have hexact : front.IsChain fun p q => q.2.first.toNat = pointAfter p.2.last.toNat := by
    refine h.follow.imp fun p q hpq => ?_
    have := toNat_le_maxWord q.2.first
    rw [pointAfter]
    omega
  have hlast : pointAfter maxWord = maxWord := by decide
  refine ⟨?_, ?_, List.isChain_append.2 ⟨hexact, ?_, ?_⟩⟩
  · intro p hp
    rcases List.mem_append.1 hp with hp | hp
    · exact h.valid p hp
    · obtain ⟨hfirst, hend⟩ := hover.point p hp
      rw [Range.valid, decide_eq_true_eq, UInt64.le_iff_toNat_le, hfirst, hend]
  · rw [List.head?_append_of_ne_nil _ hne]
    exact h.first
  · refine List.Pairwise.isChain (List.pairwise_of_forall_mem_list fun p hp q hq => ?_)
    rw [(hover.point p hp).2, (hover.point q hq).1, hlast]
  · intro p hp q hq
    have hq := List.mem_of_mem_head? hq
    obtain ⟨p', hp', hreached⟩ := hover.reached (List.ne_nil_of_mem hq)
    obtain rfl := Option.mem_unique hp hp'
    rw [hreached, (hover.point q hq).1, hlast]

theorem Row.start_le (h : Row (· + 1) start ranges) : ∀ p ∈ ranges, start ≤ p.2.first.toNat := by
  induction ranges generalizing start with
  | nil => nofun
  | cons p ranges ih =>
      obtain ⟨hvalid, hfirst, hrest⟩ := row_cons_iff.1 h
      refine List.forall_mem_cons.2 ⟨Nat.le_of_eq hfirst.symm, fun q hq => ?_⟩
      have hp := toNat_first_le hvalid
      have hq := ih hrest q hq
      omega

theorem Row.separate (h : Row (· + 1) start ranges) : Range.Separate (ranges.map (·.2)) := by
  induction ranges generalizing start with
  | nil => exact .nil
  | cons p ranges ih =>
      obtain ⟨-, -, hrest⟩ := row_cons_iff.1 h
      refine List.pairwise_cons.2 ⟨List.forall_mem_map.2 fun q hq => ?_, ih hrest⟩
      rw [Range.overlaps_eq_false_iff]
      intro x hxp hxq
      have hpq := hrest.start_le q hq
      have hxlast : x.toNat ≤ p.2.last.toNat := UInt64.le_iff_toNat_le.1 hxp.2
      have hxfirst : q.2.first.toNat ≤ x.toNat := UInt64.le_iff_toNat_le.1 hxq.1
      omega

/-- Surplus shares the last point with the row that it follows. -/
theorem Overrun.eq_nil (h : Overrun front surplus) (hvalid : ∀ p ∈ front, p.2.valid = true)
    (hsep : Range.Separate ((front ++ surplus).map (·.2))) : surplus = [] := by
  by_contra hne
  obtain ⟨p, hp, hreached⟩ := h.reached hne
  obtain ⟨q, hq⟩ := List.exists_mem_of_ne_nil surplus hne
  obtain ⟨hfirst, hlast⟩ := h.point q hq
  have hp := List.mem_of_mem_getLast? hp
  have hqlast : p.2.last ∈ q.2 := by
    rw [Range.mem_iff, UInt64.le_iff_toNat_le, UInt64.le_iff_toNat_le]
    omega
  rw [List.map_append, Range.separate_append] at hsep
  exact hsep.2.2 p.2.last ⟨p.2, List.mem_map_of_mem hp, Range.last_mem (hvalid p hp)⟩
    ⟨q.2, List.mem_map_of_mem hq, hqlast⟩

end Tilings

/-! ## Explicit ranges -/

section Ranges

variable {ranges : List (κ × Range UInt64)} {b : Branches κ}

theorem ofRanges_eq_ok_iff :
    ofRanges ranges = .ok b ↔ Row pointAfter 1 ranges ∧ ∃ p ∈ ranges.getLast?, b = ⟨ranges, p.2.last⟩ := by
  rw [← checkTiles_eq_ok_iff 0, ofRanges]
  cases hcheck : checkTiles 0 1 ranges with
  | error e => exact iff_of_false (by rintro ⟨⟩) (by rintro ⟨⟨⟩, -⟩)
  | ok u =>
      cases hlast : ranges.getLast? with
      | none => exact iff_of_false (by rintro ⟨⟩) (by rintro ⟨-, -, ⟨⟩, -⟩)
      | some p =>
          constructor
          · rintro ⟨⟩
            exact ⟨rfl, p, rfl, rfl⟩
          · rintro ⟨-, _, ⟨⟩, rfl⟩
            rfl

theorem exists_ofRanges_iff : (∃ b, ofRanges ranges = .ok b) ↔ Row pointAfter 1 ranges ∧ ranges ≠ [] := by
  constructor
  · rintro ⟨b, hb⟩
    obtain ⟨hrow, p, hp, -⟩ := ofRanges_eq_ok_iff.1 hb
    exact ⟨hrow, List.ne_nil_of_mem (List.mem_of_mem_getLast? hp)⟩
  · rintro ⟨hrow, hne⟩
    exact ⟨_, ofRanges_eq_ok_iff.2 ⟨hrow, _, List.getLast?_eq_some_getLast hne, rfl⟩⟩

theorem exists_ofRanges_iff_overrun : (∃ b, ofRanges ranges = .ok b) ↔
    ∃ front surplus, ranges = front ++ surplus ∧ Tiles front ∧ Overrun front surplus := by
  rw [exists_ofRanges_iff]
  constructor
  · rintro ⟨hrow, hne⟩
    obtain ⟨front, surplus, rfl, hfront, hover⟩ := hrow.exists_overrun
    refine ⟨front, surplus, rfl, ⟨hfront, ?_⟩, hover⟩
    rintro rfl
    obtain ⟨p, hp, -⟩ := hover.reached hne
    cases hp
  · rintro ⟨front, surplus, rfl, hfront, hover⟩
    exact ⟨hfront.toRow.append_overrun hfront.ne_nil hover, List.append_ne_nil_of_left_ne_nil hfront.ne_nil _⟩

theorem tiles_iff : Tiles ranges ↔ (∃ b, ofRanges ranges = .ok b) ∧ Range.Separate (ranges.map (·.2)) := by
  rw [exists_ofRanges_iff_overrun]
  constructor
  · intro h
    exact ⟨⟨ranges, [], (List.append_nil _).symm, h, nofun, fun h => absurd rfl h⟩, h.separate⟩
  · rintro ⟨⟨front, surplus, rfl, hfront, hover⟩, hsep⟩
    rw [hover.eq_nil hfront.valid hsep, List.append_nil]
    exact hfront

end Ranges

/-! ## Weights -/

/-- The sum of weights. -/
def sumOf (weights : List (κ × UInt64)) : Nat := (weights.map (·.2.toNat)).sum

/-- Weights that can be laid out: there is one, none is zero, and a word holds their sum. -/
structure Usable (weights : List (κ × UInt64)) : Prop where
  ne_nil : weights ≠ []
  pos : ∀ p ∈ weights, p.2 ≠ 0
  sum_le : sumOf weights ≤ maxWord

section Weights

variable {next : Nat} {weights front ones : List (κ × UInt64)} {laid : List (κ × Range UInt64)}

@[simp] theorem sumOf_nil : sumOf ([] : List (κ × UInt64)) = 0 := rfl

@[simp] theorem sumOf_cons (key : κ) (weight : UInt64) :
    sumOf ((key, weight) :: weights) = weight.toNat + sumOf weights := rfl

@[simp] theorem sumOf_append : sumOf (front ++ ones) = sumOf front + sumOf ones := by
  rw [sumOf, List.map_append, List.sum_append]
  rfl

theorem toNat_pos {w : UInt64} (h : w ≠ 0) : 0 < w.toNat :=
  Nat.pos_of_ne_zero fun hw => h (UInt64.toNat_inj.1 hw)

theorem Laid.pos (h : Laid next weights laid) : ∀ p ∈ weights, p.2 ≠ 0 := by
  induction h with
  | nil => nofun
  | cons hzero _ _ ih => exact List.forall_mem_cons.2 ⟨hzero, ih⟩

/-- Weights of 1 can be laid out from everywhere, as the ranges of those that do not fit are all the last point. -/
theorem exists_laid_ones (hnext : next ≤ maxWord) (hones : ∀ p ∈ ones, p.2 = 1) : ∃ laid, Laid next ones laid := by
  induction ones generalizing next with
  | nil => exact ⟨[], .nil⟩
  | cons p ones ih =>
      obtain ⟨key, weight⟩ := p
      obtain ⟨rfl, hrest⟩ := List.forall_mem_cons.1 hones
      obtain ⟨laid, hlaid⟩ := ih (Nat.min_le_right (next + (UInt64.toNat 1 - 1) + 1) maxWord) hrest
      exact ⟨_, .cons (by decide) hnext hlaid⟩

theorem exists_laid_append (hnext : next ≤ maxWord) (hpos : ∀ p ∈ front, p.2 ≠ 0)
    (hfits : next + sumOf front ≤ maxWord + 1) (hones : ∀ p ∈ ones, p.2 = 1) :
    ∃ laid, Laid next (front ++ ones) laid := by
  induction front generalizing next with
  | nil => exact exists_laid_ones hnext hones
  | cons p front ih =>
      obtain ⟨key, weight⟩ := p
      obtain ⟨hzero, hpos⟩ := List.forall_mem_cons.1 hpos
      have hweight : 0 < weight.toNat := toNat_pos hzero
      rw [sumOf_cons] at hfits
      obtain ⟨laid, hlaid⟩ := ih (Nat.min_le_right (next + (weight.toNat - 1) + 1) maxWord) hpos (by omega)
      exact ⟨_, .cons hzero (by omega) hlaid⟩

theorem Laid.eq_one (h : Laid maxWord weights laid) : ∀ p ∈ weights, p.2 = 1 := by
  generalize hnext : maxWord = next at h
  induction h with
  | nil => nofun
  | @cons next key weight rest laid hzero hfits _ ih =>
      subst hnext
      have hweight := toNat_pos hzero
      refine List.forall_mem_cons.2 ⟨UInt64.toNat_inj.1 ?_, ih (by omega)⟩
      change weight.toNat = 1
      omega

theorem Laid.exists_ones (h : Laid next weights laid) (hnext : next ≤ maxWord) :
    ∃ front ones, weights = front ++ ones ∧ next + sumOf front ≤ maxWord + 1 ∧ ∀ p ∈ ones, p.2 = 1 := by
  induction h with
  | nil => exact ⟨[], [], rfl, Nat.le_succ_of_le hnext, nofun⟩
  | @cons next key weight rest laid hzero hfits hrest ih =>
      have hweight := toNat_pos hzero
      by_cases hreached : next + (weight.toNat - 1) = maxWord
      · rw [hreached, Nat.min_eq_right (Nat.le_succ _)] at hrest
        refine ⟨[(key, weight)], rest, rfl, ?_, hrest.eq_one⟩
        rw [sumOf_cons, sumOf_nil]
        omega
      · have hroom : next + (weight.toNat - 1) + 1 ≤ maxWord := Nat.lt_of_le_of_ne hfits hreached
        obtain ⟨front, ones, heq, hfront, hones⟩ := ih (Nat.min_le_right ..)
        rw [Nat.min_eq_left hroom] at hfront
        refine ⟨(key, weight) :: front, ones, by rw [heq, List.cons_append], ?_, hones⟩
        rw [sumOf_cons]
        omega

theorem Laid.getLast?_eq (h : Laid next weights laid) (hnext : 0 < next) :
    ∀ p ∈ laid.getLast?, p.2.last.toNat = min (next - 1 + sumOf weights) maxWord := by
  induction h with
  | nil => nofun
  | @cons next key weight rest laid hzero hfits hrest ih =>
      have hweight := toNat_pos hzero
      intro p hp
      rw [sumOf_cons]
      cases hrest with
      | nil =>
          cases hp
          rw [List.getLast_singleton, toNat_toUInt64 hfits, sumOf_nil]
          omega
      | cons hzero' _ _ =>
          have hweight' := toNat_pos hzero'
          have hlast := ih (by omega) p hp
          rw [sumOf_cons] at hlast ⊢
          omega

theorem exists_ofWeights_iff : (∃ b, ofWeights weights = .ok b) ↔ weights ≠ [] ∧ ∃ laid, Laid 1 weights laid := by
  constructor
  · rintro ⟨b, hb⟩
    obtain ⟨hkeys, hne⟩ := keys_of_ofWeights hb
    refine ⟨?_, _, (laid_of_ofWeights hb).1⟩
    rintro rfl
    exact hne (List.map_eq_nil_iff.1 hkeys)
  · rintro ⟨hne, laid, hlaid⟩
    exact hlaid.exists_ofWeights hne

theorem exists_ofWeights_iff_ones : (∃ b, ofWeights weights = .ok b) ↔ weights ≠ [] ∧ (∀ p ∈ weights, p.2 ≠ 0) ∧
    ∃ front ones, weights = front ++ ones ∧ sumOf front ≤ maxWord ∧ ∀ p ∈ ones, p.2 = 1 := by
  rw [exists_ofWeights_iff]
  refine and_congr_right fun _ => ⟨?_, ?_⟩
  · rintro ⟨laid, hlaid⟩
    obtain ⟨front, ones, heq, hfits, hones⟩ := hlaid.exists_ones (by decide)
    exact ⟨hlaid.pos, front, ones, heq, by omega, hones⟩
  · rintro ⟨hpos, front, ones, rfl, hfits, hones⟩
    exact exists_laid_append (by decide) (fun p hp => hpos p (List.mem_append_left _ hp)) (by omega) hones

theorem toNat_total {b : Branches κ} (h : ofWeights weights = .ok b) : b.total.toNat = min (sumOf weights) maxWord := by
  obtain ⟨hlaid, -⟩ := laid_of_ofWeights h
  rw [hlaid.ofWeights_eq] at h
  cases hlast : b.branches.getLast? with
  | none =>
      rw [hlast] at h
      cases h
  | some p =>
      have hend := hlaid.getLast?_eq Nat.one_pos p hlast
      rw [hlast, Except.ok.injEq] at h
      rw [← h, hend, Nat.sub_self, Nat.zero_add]

theorem Usable.exists_ofWeights (h : Usable weights) :
    ∃ b, ofWeights weights = .ok b ∧ b.total.toNat = sumOf weights := by
  obtain ⟨b, hb⟩ := exists_ofWeights_iff_ones.2
    ⟨h.ne_nil, h.pos, weights, [], (List.append_nil _).symm, h.sum_le, nofun⟩
  exact ⟨b, hb, (toNat_total hb).trans (Nat.min_eq_left h.sum_le)⟩

theorem usable_iff : Usable weights ↔ ∃ b, ofWeights weights = .ok b ∧ b.total.toNat = sumOf weights := by
  refine ⟨Usable.exists_ofWeights, ?_⟩
  rintro ⟨b, hb, htotal⟩
  obtain ⟨hne, hpos, -⟩ := exists_ofWeights_iff_ones.1 ⟨b, hb⟩
  exact ⟨hne, hpos, htotal ▸ toNat_le_maxWord _⟩

end Weights

/-! ## Refusals -/

/-- Invalid weights are the only reason to refuse. -/
def RefusesWeights {α : Type} (x : Except ConfigError α) : Prop :=
  ∀ e, x = .error e → ∃ detail, e = .invalidWeights detail

section Refusals

variable {α β : Type}

theorem refusesWeights_ok (a : α) : RefusesWeights (.ok a) := nofun

theorem RefusesWeights.bind {x : Except ConfigError α} {f : α → Except ConfigError β} (hx : RefusesWeights x)
    (hf : ∀ a, RefusesWeights (f a)) : RefusesWeights (x >>= f) := by
  cases x with
  | error e => exact fun _ h => hx _ (by cases h; rfl)
  | ok a => exact hf a

theorem refusesWeights_unless {p : Prop} [Decidable p] (detail : String) {f : PUnit → Except ConfigError α}
    (hf : RefusesWeights (f ⟨⟩)) :
    RefusesWeights (if p then throw (.invalidWeights detail) >>= f else f ⟨⟩) := by
  split
  · rintro _ ⟨⟩
    exact ⟨detail, rfl⟩
  · exact hf

theorem refusesWeights_checkTiles (index start : Nat) (ranges : List (κ × Range UInt64)) :
    RefusesWeights (checkTiles index start ranges) := by
  induction ranges generalizing index start with
  | nil => exact refusesWeights_ok ()
  | cons p ranges ih =>
      rw [checkTiles]
      refine refusesWeights_unless _ ?_
      refine refusesWeights_unless _ ?_
      exact ih _ _

theorem refusesWeights_layOut (index next : Nat) (weights : List (κ × UInt64)) :
    RefusesWeights (layOut index next weights) := by
  induction weights generalizing index next with
  | nil => exact refusesWeights_ok []
  | cons p rest ih =>
      rw [layOut]
      refine refusesWeights_unless _ ?_
      refine refusesWeights_unless _ ?_
      exact (ih _ _).bind fun _ => refusesWeights_ok _

theorem refusesWeights_ofRanges (ranges : List (κ × Range UInt64)) : RefusesWeights (ofRanges ranges) := by
  refine (refusesWeights_checkTiles 0 1 ranges).bind fun _ => ?_
  cases ranges.getLast? with
  | none =>
      rintro _ ⟨⟩
      exact ⟨_, rfl⟩
  | some p => exact refusesWeights_ok _

theorem refusesWeights_ofWeights (weights : List (κ × UInt64)) : RefusesWeights (ofWeights weights) :=
  (refusesWeights_layOut 0 1 weights).bind refusesWeights_ofRanges

/-- Weights are refused at the first one that is zero, if those before it fit. -/
theorem layOut_of_zero {index next : Nat} {front rest : List (κ × UInt64)} {key : κ}
    (hpos : ∀ p ∈ front, p.2 ≠ 0) (hfits : next + sumOf front ≤ maxWord + 1) :
    layOut index next (front ++ (key, 0) :: rest) =
      .error (.invalidWeights s!"branch {index + front.length} has a zero weight") := by
  induction front generalizing index next with
  | nil =>
      rw [List.nil_append, layOut, if_pos rfl]
      rfl
  | cons p front ih =>
      obtain ⟨key', weight⟩ := p
      obtain ⟨hzero, hpos⟩ := List.forall_mem_cons.1 hpos
      have hweight : 0 < weight.toNat := toNat_pos hzero
      rw [sumOf_cons] at hfits
      have hlast : ¬ maxWord < next + (weight.toNat - 1) := by omega
      have hrest : layOut (index + 1) (min (next + (weight.toNat - 1) + 1) maxWord) (front ++ (key, 0) :: rest) = _ :=
        ih hpos (by omega)
      have hplace : index + ((key', weight) :: front).length = index + 1 + front.length := by
        rw [List.length_cons]
        omega
      rw [List.cons_append, layOut, if_neg hzero, hplace]
      simp only [if_neg hlast, hrest]
      rfl

theorem ofWeights_of_zero {front rest : List (κ × UInt64)} {key : κ} (hpos : ∀ p ∈ front, p.2 ≠ 0)
    (hfits : sumOf front ≤ maxWord) :
    ofWeights (front ++ (key, 0) :: rest) =
      .error (.invalidWeights s!"branch {front.length} has a zero weight") := by
  rw [ofWeights, layOut_of_zero hpos (by omega), Nat.zero_add]
  rfl

end Refusals

/-! ## What is accepted -/

/-- Ranges are accepted just when they tile the points from 1 on, up to ranges of the last point alone that come after
one that ends there; so accepted ranges tile just when no two of them share a point. Weights are accepted, with their
sum as the total, when there is one, none is zero and a word holds the sum; else just when this is so without some
1s at the end, and then the total is the last point. What is refused is refused as invalid weights. -/
theorem accepted_iff_tiles_then_overrun (ranges : List (κ × Range UInt64)) (weights : List (κ × UInt64)) :
    ((∃ b, ofRanges ranges = .ok b) ↔
      ∃ front surplus, ranges = front ++ surplus ∧ Tiles front ∧ Overrun front surplus) ∧
    (Tiles ranges ↔ (∃ b, ofRanges ranges = .ok b) ∧ Range.Separate (ranges.map (·.2))) ∧
    RefusesWeights (ofRanges ranges) ∧
    ((∃ b, ofWeights weights = .ok b) ↔ weights ≠ [] ∧ (∀ p ∈ weights, p.2 ≠ 0) ∧
      ∃ front ones, weights = front ++ ones ∧ sumOf front ≤ maxWord ∧ ∀ p ∈ ones, p.2 = 1) ∧
    (Usable weights ↔ ∃ b, ofWeights weights = .ok b ∧ b.total.toNat = sumOf weights) ∧
    (∀ b, ofWeights weights = .ok b → b.total.toNat = min (sumOf weights) maxWord) ∧
    RefusesWeights (ofWeights weights) :=
  ⟨exists_ofRanges_iff_overrun, tiles_iff, refusesWeights_ofRanges ranges, exists_ofWeights_iff_ones, usable_iff,
    fun _ => toNat_total, refusesWeights_ofWeights weights⟩

/-- The last point is given out twice: as the end of the first range, and as the second one. -/
theorem last_point_owned_twice :
    ofRanges [("a", ⟨1, 18446744073709551615⟩), ("b", ⟨18446744073709551615, 18446744073709551615⟩)] =
      .ok ⟨[("a", ⟨1, 18446744073709551615⟩), ("b", ⟨18446744073709551615, 18446744073709551615⟩)],
        18446744073709551615⟩ ∧
    ofWeights [("a", 18446744073709551615), ("b", 1)] =
      .ok ⟨[("a", ⟨1, 18446744073709551615⟩), ("b", ⟨18446744073709551615, 18446744073709551615⟩)],
        18446744073709551615⟩ ∧
    maxWord < sumOf [("a", 18446744073709551615), ("b", 1)] ∧
    ¬ Tiles [("a", ⟨1, 18446744073709551615⟩), ("b", ⟨18446744073709551615, 18446744073709551615⟩)] := by
  refine ⟨rfl, rfl, by decide, fun h => ?_⟩
  exact absurd h.separate (by decide)

end Backfill.Branches
