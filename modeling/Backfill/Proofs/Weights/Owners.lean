import Backfill.Proofs.Weights.Acceptance
import Backfill.Proofs.Weights.Draws

/-!
# Every branch owns its weight

Branches laid out by weights get the points from 1 to the sum of the weights, one after another and each as many as
its weight says. The owner of a point is the one branch whose range holds it, and a search by halves finds it, since
the branches that end before a point come first. As draws are even, every branch is drawn in proportion to its weight.
-/

namespace Backfill.Branches

variable {κ : Type}

/-! ## Layout -/

/-- How many points the branches before a place own. -/
def pointsBefore (weights : List (κ × UInt64)) (place : Nat) : Nat := sumOf (weights.take place)

/-- Branches in the order of their weights, each with the points after those of the branches before it, as many as
its weight says. -/
structure LaidOut (weights : List (κ × UInt64)) (b : Branches κ) : Prop where
  usable : Usable weights
  total : b.total.toNat = sumOf weights
  keys : b.branches.map (·.1) = weights.map (·.1)
  range : ∀ place key weight, weights[place]? = some (key, weight) → ∃ r, b.branches[place]? = some (key, r) ∧
    r.first.toNat = pointsBefore weights place + 1 ∧ r.last.toNat = pointsBefore weights (place + 1)

section Layout

variable {next place : Nat} {key : κ} {weight : UInt64} {weights : List (κ × UInt64)}
  {laid : List (κ × Range UInt64)}

theorem pointsBefore_succ (h : weights[place]? = some (key, weight)) :
    pointsBefore weights (place + 1) = pointsBefore weights place + weight.toNat := by
  rw [pointsBefore, List.take_add_one, h, sumOf_append]
  rfl

theorem pointsBefore_mono (weights : List (κ × UInt64)) : Monotone (pointsBefore weights) := by
  refine monotone_nat_of_le_succ fun place => ?_
  rw [pointsBefore, pointsBefore, List.take_add_one, sumOf_append]
  exact Nat.le_add_right ..

theorem pointsBefore_le (weights : List (κ × UInt64)) (place : Nat) : pointsBefore weights place ≤ sumOf weights := by
  rw [pointsBefore]
  conv_rhs => rw [← List.take_append_drop place weights, sumOf_append]
  exact Nat.le_add_right ..

theorem pointsBefore_length (weights : List (κ × UInt64)) : pointsBefore weights weights.length = sumOf weights := by
  rw [pointsBefore, List.take_length]

theorem Laid.exists_range (h : Laid next weights laid) (hfits : next + sumOf weights ≤ maxWord + 1)
    (hplace : weights[place]? = some (key, weight)) : ∃ r, laid[place]? = some (key, r) ∧
      r.first.toNat = next + pointsBefore weights place ∧
      r.last.toNat + 1 = next + pointsBefore weights (place + 1) := by
  induction h generalizing place with
  | nil => cases hplace
  | @cons next key' weight' rest laid hzero hlast hrest ih =>
      have hweight := toNat_pos hzero
      rw [sumOf_cons] at hfits
      cases place with
      | zero =>
          cases hplace
          refine ⟨_, rfl, toNat_toUInt64 (by omega), ?_⟩
          rw [toNat_toUInt64 hlast, pointsBefore_succ (by rfl), pointsBefore, List.take_zero, sumOf_nil]
          omega
      | succ place =>
          -- a further weight is at least 1, so the first range ends before the last point
          have hfurther : 0 < weight.toNat := toNat_pos (hrest.pos _ (List.mem_of_getElem? hplace))
          have hsucc := pointsBefore_succ (show rest[place]? = some (key, weight) from hplace)
          have hrestle := pointsBefore_le rest (place + 1)
          have hroom : next + (weight'.toNat - 1) + 1 ≤ maxWord := by omega
          rw [Nat.min_eq_left hroom] at ih
          obtain ⟨r, hr, hfirst, hlast⟩ := ih (by omega) hplace
          refine ⟨r, hr, ?_, ?_⟩
          · rw [hfirst, pointsBefore, pointsBefore, List.take_succ_cons, sumOf_cons]
            omega
          · rw [hlast, pointsBefore, pointsBefore, List.take_succ_cons, sumOf_cons]
            omega

theorem Usable.exists_laidOut (h : Usable weights) : ∃ b, ofWeights weights = .ok b ∧ LaidOut weights b := by
  obtain ⟨b, hb, htotal⟩ := h.exists_ofWeights
  refine ⟨b, hb, h, htotal, (keys_of_ofWeights hb).1, fun place key weight hplace => ?_⟩
  have hsum := h.sum_le
  obtain ⟨r, hr, hfirst, hlast⟩ := (laid_of_ofWeights hb).1.exists_range (by omega) hplace
  exact ⟨r, hr, by omega, by omega⟩

/-- Every point up to the sum is among those of one place. -/
theorem exists_pointsBefore {n : Nat} (hpos : 0 < n) (hn : n ≤ sumOf weights) :
    ∃ place, pointsBefore weights place < n ∧ n ≤ pointsBefore weights (place + 1) := by
  have hend : ∃ place, n ≤ pointsBefore weights place := ⟨weights.length, by rwa [pointsBefore_length]⟩
  have hle := Nat.find_spec hend
  cases hplace : Nat.find hend with
  | zero =>
      rw [hplace] at hle
      exact absurd hle (Nat.not_le.2 hpos)
  | succ place =>
      rw [hplace] at hle
      exact ⟨place, Nat.lt_of_not_le (Nat.find_min hend (by omega)), hle⟩

end Layout

/-! ## Places of points -/

namespace LaidOut

variable {weights : List (κ × UInt64)} {b : Branches κ} {point : UInt64} {place : Nat}

theorem length_eq (h : LaidOut weights b) : b.branches.length = weights.length := by
  rw [← List.length_map (·.1), h.keys, List.length_map]

theorem branches_ne_nil (h : LaidOut weights b) : b.branches ≠ [] := by
  rw [← List.length_pos_iff, h.length_eq]
  exact List.length_pos_iff.2 h.usable.ne_nil

theorem total_pos (h : LaidOut weights b) : 0 < b.total.toNat := by
  obtain ⟨⟨key, weight⟩, hmem⟩ := List.exists_mem_of_ne_nil _ h.usable.ne_nil
  obtain ⟨place, hplace⟩ := List.mem_iff_getElem?.1 hmem
  have hweight : 0 < weight.toNat := toNat_pos (h.usable.pos _ hmem)
  have hle := pointsBefore_le weights (place + 1)
  rw [pointsBefore_succ hplace] at hle
  rw [h.total]
  omega

variable {key : κ} {r : Range UInt64}

theorem bounds (h : LaidOut weights b) (hr : b.branches[place]? = some (key, r)) :
    r.first.toNat = pointsBefore weights place + 1 ∧ r.last.toNat = pointsBefore weights (place + 1) := by
  have hlt := h.length_eq ▸ (List.getElem?_eq_some_iff.1 hr).1
  obtain ⟨r', hr', hbounds⟩ := h.range place _ _ (List.getElem?_eq_getElem hlt)
  rw [hr, Option.some.injEq, Prod.mk.injEq] at hr'
  rw [hr'.2]
  exact hbounds

theorem last_getElem (h : LaidOut weights b) (hlt : place < b.branches.length) :
    b.branches[place].2.last.toNat = pointsBefore weights (place + 1) := (h.bounds (List.getElem?_eq_getElem hlt)).2

theorem mem_iff (h : LaidOut weights b) (hr : b.branches[place]? = some (key, r)) :
    point ∈ r ↔ pointsBefore weights place < point.toNat ∧ point.toNat ≤ pointsBefore weights (place + 1) := by
  obtain ⟨hfirst, hlast⟩ := h.bounds hr
  rw [Range.mem_iff, UInt64.le_iff_toNat_le, UInt64.le_iff_toNat_le, hfirst, hlast]
  rfl

theorem placeOf_eq_min (b : Branches κ) (point : UInt64) : b.placeOf point =
    min (b.branches.findIdx fun branch => decide (point ≤ branch.2.last)) (b.branches.length - 1) := rfl

theorem placeOf_eq (h : LaidOut weights b) (hlow : pointsBefore weights place < point.toNat)
    (hhigh : point.toNat ≤ pointsBefore weights (place + 1)) : b.placeOf point = place := by
  have hlt : place < b.branches.length := by
    by_contra hge
    rw [h.length_eq, Nat.not_lt] at hge
    have hall : pointsBefore weights place = sumOf weights := by rw [pointsBefore, List.take_of_length_le hge]
    have hle := pointsBefore_le weights (place + 1)
    omega
  have hfirst : (b.branches.findIdx fun branch => decide (point ≤ branch.2.last)) = place := by
    refine (List.findIdx_eq hlt).2 ⟨?_, fun earlier hearlier => ?_⟩
    · rw [decide_eq_true_eq, UInt64.le_iff_toNat_le, h.last_getElem]
      exact hhigh
    · have hmono := pointsBefore_mono weights (Nat.succ_le_of_lt hearlier)
      rw [decide_eq_false_iff_not, UInt64.le_iff_toNat_le, h.last_getElem]
      exact Nat.not_le.2 (Nat.lt_of_le_of_lt hmono hlow)
  rw [placeOf_eq_min, hfirst]
  omega

theorem placeOf_of_total_lt (h : LaidOut weights b) (hlt : b.total < point) :
    b.placeOf point = b.branches.length - 1 := by
  have hnone : (b.branches.findIdx fun branch => decide (point ≤ branch.2.last)) = b.branches.length := by
    refine List.findIdx_eq_length.2 fun branch hbranch => ?_
    obtain ⟨place, hplace⟩ := List.mem_iff_getElem?.1 hbranch
    have hlast := (h.bounds hplace).2
    have hle := pointsBefore_le weights (place + 1)
    rw [UInt64.lt_iff_toNat_lt, h.total] at hlt
    rw [decide_eq_false_iff_not, UInt64.le_iff_toNat_le, hlast]
    omega
  rw [placeOf_eq_min, hnone]
  omega

theorem placeOf_eq_iff_between (h : LaidOut weights b) (hpos : 0 < point.toNat) (hle : point.toNat ≤ b.total.toNat) :
    b.placeOf point = place ↔
      pointsBefore weights place < point.toNat ∧ point.toNat ≤ pointsBefore weights (place + 1) := by
  constructor
  · rintro rfl
    obtain ⟨place, hlow, hhigh⟩ := exists_pointsBefore hpos (h.total ▸ hle)
    rw [h.placeOf_eq hlow hhigh]
    exact ⟨hlow, hhigh⟩
  · rintro ⟨hlow, hhigh⟩
    exact h.placeOf_eq hlow hhigh

/-- The owner of a point is the branch whose range holds it. -/
theorem placeOf_eq_iff (h : LaidOut weights b) (hpos : 0 < point.toNat) (hle : point.toNat ≤ b.total.toNat)
    (hr : b.branches[place]? = some (key, r)) : b.placeOf point = place ↔ point ∈ r := by
  rw [h.placeOf_eq_iff_between hpos hle, h.mem_iff hr]

theorem mem_total_of_mem (h : LaidOut weights b) (hr : b.branches[place]? = some (key, r)) (hmem : point ∈ r) :
    0 < point.toNat ∧ point.toNat ≤ b.total.toNat := by
  obtain ⟨hlow, hhigh⟩ := (h.mem_iff hr).1 hmem
  have hle := pointsBefore_le weights (place + 1)
  rw [h.total]
  omega

end LaidOut

/-! ## Search by halves -/

/-- The first of `size` places from `base` on at which a test fails, found by halving, for a test that holds on a
first part of the places only. -/
def halve (test : Nat → Bool) (base size : Nat) : Nat :=
  if size = 0 then base
  else if test (base + size / 2) then halve test (base + size / 2 + 1) (size - size / 2 - 1)
  else halve test base (size / 2)
termination_by size
decreasing_by all_goals omega

theorem halve_eq {test : Nat → Bool} {base size border : Nat} (hlow : base ≤ border) (hhigh : border ≤ base + size)
    (htest : ∀ place, base ≤ place → place < base + size → (test place = true ↔ place < border)) :
    halve test base size = border := by
  fun_induction halve test base size with
  | case1 base => omega
  | case2 base size hsize hmid ih =>
      have hborder := (htest _ (Nat.le_add_right ..) (by omega)).1 hmid
      exact ih (by omega) (by omega) fun place hbase hplace => htest place (by omega) (by omega)
  | case3 base size hsize hmid ih =>
      have hborder := mt (htest (base + size / 2) (Nat.le_add_right ..) (by omega)).2 hmid
      exact ih (by omega) (by omega) fun place hbase hplace => htest place hbase (by omega)

/-- The place that a search by halves for the first branch not ending before a point finds. -/
def search (b : Branches κ) (point : UInt64) : Nat :=
  min (halve (fun place => (b.branches[place]?).any (·.2.last < point)) 0 b.branches.length) (b.branches.length - 1)

theorem LaidOut.search_eq {weights : List (κ × UInt64)} {b : Branches κ} (h : LaidOut weights b) (point : UInt64) :
    b.search point = b.placeOf point := by
  rw [search, placeOf_eq_min]
  congr 1
  refine halve_eq (Nat.zero_le _) (by rw [Nat.zero_add]; exact List.findIdx_le_length) fun place _ hplace => ?_
  rw [Nat.zero_add] at hplace
  rw [List.getElem?_eq_getElem hplace, Option.any_some, decide_eq_true_eq]
  constructor
  · intro hlast
    by_contra hfound
    -- the branch that was found does not end before the point, and this one ends no earlier
    have hlt := Nat.lt_of_le_of_lt (Nat.not_lt.1 hfound) hplace
    have hat := UInt64.le_iff_toNat_le.1 (of_decide_eq_true (List.findIdx_getElem (w := hlt)))
    have hends := pointsBefore_mono weights (Nat.succ_le_succ (Nat.not_lt.1 hfound))
    rw [UInt64.lt_iff_toNat_lt, h.last_getElem] at hlast
    exact absurd hlast (Nat.not_lt.2 ((hat.trans (Nat.le_of_eq (h.last_getElem hlt))).trans hends))
  · intro hearlier
    have hno := List.not_of_lt_findIdx hearlier
    rw [decide_eq_false_iff_not] at hno
    exact UInt64.not_le.1 hno

/-! ## Shares of the points -/

section Shares

variable {weights : List (κ × UInt64)} {b : Branches κ} {place : Nat} {key : κ} {weight : UInt64} {r : Range UInt64}

theorem LaidOut.ncard_range (h : LaidOut weights b) (hplace : weights[place]? = some (key, weight))
    (hr : b.branches[place]? = some (key, r)) : {point | point ∈ r}.ncard = weight.toNat := by
  obtain ⟨hfirst, hlast⟩ := h.bounds hr
  rw [Range.ncard_blocks, hfirst, hlast, pointsBefore_succ hplace]
  omega

theorem LaidOut.points_of_place (h : LaidOut weights b) (hr : b.branches[place]? = some (key, r)) :
    {point | 0 < point ∧ point ≤ b.total ∧ b.placeOf point = place} = {point | point ∈ r} := by
  ext point
  simp only [Set.mem_ofPred_eq, UInt64.lt_iff_toNat_lt, UInt64.le_iff_toNat_le]
  constructor
  · rintro ⟨hpos, hle, hplace⟩
    exact (h.placeOf_eq_iff hpos hle hr).1 hplace
  · intro hmem
    obtain ⟨hpos, hle⟩ := h.mem_total_of_mem hr hmem
    exact ⟨hpos, hle, (h.placeOf_eq_iff hpos hle hr).2 hmem⟩

theorem drawPlace_eq (b : Branches κ) (words : List UInt64) :
    b.drawPlace words = (b.placeOf (draw b.total words).1, (draw b.total words).2) := rfl

/-- The words that draw a branch are those that draw its points. -/
theorem LaidOut.draws_place_iff (h : LaidOut weights b) (hr : b.branches[place]? = some (key, r)) {word : UInt64} :
    (∀ words, b.drawPlace (word :: words) = (place, words)) ↔
      ∃ point ∈ {point | point ∈ r}, ∀ words, draw b.total (word :: words) = (point, words) := by
  simp only [drawPlace_eq]
  constructor
  · intro hplace
    rcases draws_or_skips h.total_pos word with ⟨point, hpoint⟩ | hskip
    · obtain ⟨hpos, hle⟩ := draw_mem h.total_pos [word]
      have hplace := (Prod.mk.inj (hplace [])).1
      rw [hpoint] at hpos hle hplace
      exact ⟨point, (h.placeOf_eq_iff hpos hle hr).1 hplace, hpoint⟩
    · -- a word that is skipped leaves the next one to be drawn
      have hnext := (Prod.mk.inj (hplace [0])).2
      rw [hskip, draw_zero h.total_pos] at hnext
      cases hnext
  · rintro ⟨point, hmem, hpoint⟩ words
    obtain ⟨hpos, hle⟩ := h.mem_total_of_mem hr hmem
    rw [hpoint, (h.placeOf_eq_iff hpos hle hr).2 hmem]

theorem LaidOut.ncard_draws_place (h : LaidOut weights b) (hplace : weights[place]? = some (key, weight))
    (hr : b.branches[place]? = some (key, r)) :
    {word | ∀ words, b.drawPlace (word :: words) = (place, words)}.ncard =
      weight.toNat * wordsPerPoint b.total := by
  have hwithin : ∀ point ∈ {point | point ∈ r}, 0 < point.toNat ∧ point.toNat ≤ b.total.toNat :=
    fun _ hmem => h.mem_total_of_mem hr hmem
  simp only [h.draws_place_iff hr]
  rw [ncard_draws_of_points hwithin, h.ncard_range hplace hr]

theorem LaidOut.draws_place_or_skips (h : LaidOut weights b) (word : UInt64) :
    (∃ place, ∀ words, b.drawPlace (word :: words) = (place, words)) ∨
    ∀ words, b.drawPlace (word :: words) = b.drawPlace words := by
  simp only [drawPlace_eq]
  rcases draws_or_skips h.total_pos word with ⟨point, hpoint⟩ | hskip
  · exact .inl ⟨b.placeOf point, fun words => by rw [hpoint]⟩
  · exact .inr fun words => by rw [hskip]

theorem LaidOut.owner (h : LaidOut weights b) {point : UInt64} (hpos : 0 < point.toNat)
    (hle : point.toNat ≤ b.total.toNat) : ∃ key r, b.branches[b.placeOf point]? = some (key, r) ∧ point ∈ r ∧
      b.owner? point = some key ∧
      ∀ place key r, b.branches[place]? = some (key, r) → point ∈ r → place = b.placeOf point := by
  obtain ⟨⟨key, r⟩, hr⟩ : ∃ branch, b.branches[b.placeOf point]? = some branch :=
    ⟨_, List.getElem?_eq_getElem (placeOf_lt h.branches_ne_nil point)⟩
  refine ⟨key, r, hr, (h.placeOf_eq_iff hpos hle hr).1 rfl, ?_, fun place key' r' hr' hmem => ?_⟩
  · rw [owner?, hr]
    rfl
  · exact ((h.placeOf_eq_iff hpos hle hr').2 hmem).symm

end Shares

/-- Branches own what their weights say. -/
structure Owned (weights : List (κ × UInt64)) (b : Branches κ) : Prop where
  total : b.total.toNat = sumOf weights
  keys : b.branches.map (·.1) = weights.map (·.1)
  /-- A point up to the total goes to the one branch whose range holds it. -/
  inside : ∀ point, 0 < point → point ≤ b.total → ∃ key r, b.branches[b.placeOf point]? = some (key, r) ∧ point ∈ r ∧
    b.owner? point = some key ∧ ∀ place key r, b.branches[place]? = some (key, r) → point ∈ r → place = b.placeOf point
  beyond : ∀ point, b.total < point → b.owner? point = b.branches.getLast?.map (·.1)
  halves : ∀ point, b.search point = b.placeOf point
  /-- Of the points up to the total a branch has those of its range, as many as its weight. -/
  share : ∀ place key weight, weights[place]? = some (key, weight) → ∃ r, b.branches[place]? = some (key, r) ∧
    {point | 0 < point ∧ point ≤ b.total ∧ b.placeOf point = place} = {point | point ∈ r} ∧
    {point | point ∈ r}.ncard = weight.toNat
  /-- Every branch is drawn by the same number of words for each point of its weight. -/
  drawn : ∀ place key weight, weights[place]? = some (key, weight) →
    {word | ∀ words, b.drawPlace (word :: words) = (place, words)}.ncard = weight.toNat * wordsPerPoint b.total
  /-- A word that draws no branch is skipped. -/
  skipped : ∀ word, (∃ place, ∀ words, b.drawPlace (word :: words) = (place, words)) ∨
    ∀ words, b.drawPlace (word :: words) = b.drawPlace words

/-- Positive weights whose sum a word holds are accepted, and their branches own what the weights say. -/
theorem branches_own_their_weights {weights : List (κ × UInt64)} (h : Usable weights) :
    ∃ b, ofWeights weights = .ok b ∧ Owned weights b := by
  obtain ⟨b, hb, hlaid⟩ := h.exists_laidOut
  refine ⟨b, hb, hlaid.total, hlaid.keys, ?_, ?_, hlaid.search_eq, ?_, ?_, hlaid.draws_place_or_skips⟩
  · intro point hpos hle
    exact hlaid.owner (UInt64.lt_iff_toNat_lt.1 hpos) (UInt64.le_iff_toNat_le.1 hle)
  · intro point hlt
    rw [owner?, hlaid.placeOf_of_total_lt hlt, List.getLast?_eq_getElem?]
  · intro place key weight hplace
    obtain ⟨r, hr, -⟩ := hlaid.range place key weight hplace
    exact ⟨r, hr, hlaid.points_of_place hr, hlaid.ncard_range hplace hr⟩
  · intro place key weight hplace
    obtain ⟨r, hr, -⟩ := hlaid.range place key weight hplace
    exact hlaid.ncard_draws_place hplace hr

theorem usable_threeBranches : Usable [("a", 3), ("b", 1), ("c", 6)] := ⟨by decide, by decide, by decide⟩

/-- Of ten points the last six go to the third branch. -/
theorem branches_own_their_weights_threeBranches : Usable [("a", 3), ("b", 1), ("c", 6)] ∧
    ∃ b, ofWeights [("a", 3), ("b", 1), ("c", 6)] = .ok b ∧
      {point | 0 < point ∧ point ≤ b.total ∧ b.placeOf point = 2}.ncard = 6 := by
  obtain ⟨b, hb, howned⟩ := branches_own_their_weights usable_threeBranches
  obtain ⟨r, -, hpoints, hcount⟩ := howned.share 2 "c" 6 rfl
  exact ⟨usable_threeBranches, b, hb, by rw [hpoints, hcount]; rfl⟩

end Backfill.Branches
