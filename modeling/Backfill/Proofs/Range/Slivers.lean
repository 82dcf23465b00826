import Backfill.Proofs.Range.Beside
import Backfill.Proofs.Range.Ending
import Backfill.Proofs.Range.Todo

/-!
# Where ranges come out inverted

Cutting holes out of a range steps back from the start of a hole and ahead from its end. Where less than a step is left
between a hole and an end of the range, or between two holes, these steps pass each other, and what is cut out there is
inverted. The same happens to the last piece of a range of which less than a step is left. Blocks leave whole steps, so
nothing of theirs is ever inverted.
-/

namespace Backfill.Range

section Axes

variable {α : Type} [Axis α] {current hole p : Range α} {holes : List (Range α)}

/-- Less than a step of a range is left before the first hole that reaches into it, between two neighbouring holes, or
after a hole, and `p` is what cutting makes of it. -/
inductive Sliver (current : Range α) (holes : List (Range α)) (p : Range α) : Prop
  | before (passed : List (Range α)) (hole : Range α) (later : List (Range α)) : holes = passed ++ hole :: later →
      (∀ h ∈ passed, Axis.rank h.last < Axis.rank current.first) →
      Axis.rank (Axis.prev hole.first) < Axis.rank current.first → Axis.rank current.first < Axis.rank hole.first →
      Axis.rank hole.first ≤ Axis.rank current.last → p = ⟨current.first, Axis.prev hole.first⟩ →
      Sliver current holes p
  | between (passed : List (Range α)) (hole other : Range α) (later : List (Range α)) :
      holes = passed ++ hole :: other :: later → Axis.rank current.first ≤ Axis.rank hole.last →
      Axis.rank other.first ≤ Axis.rank current.last →
      Axis.rank (Axis.prev other.first) < Axis.rank (Axis.next hole.last) →
      p = ⟨Axis.next hole.last, Axis.prev other.first⟩ → Sliver current holes p
  | after (hole : Range α) : hole ∈ holes → Axis.rank current.first ≤ Axis.rank hole.last →
      Axis.rank hole.last < Axis.rank current.last → Axis.rank current.last < Axis.rank (Axis.next hole.last) →
      p = ⟨Axis.next hole.last, current.last⟩ → Sliver current holes p

theorem not_valid_iff_rank {r : Range α} : r.valid = false ↔ Axis.rank r.last < Axis.rank r.first := by
  rw [← Bool.not_eq_true, valid_iff_rank]
  omega

/-! ## Holes in order -/

theorem Merged.valid_rank (h : Merged holes) (ho : hole ∈ holes) : Axis.rank hole.first ≤ Axis.rank hole.last :=
  valid_iff_rank.1 (h.valid hole ho)

theorem Merged.apart_head (h : Merged (hole :: holes)) {other : Range α} (ho : other ∈ holes) :
    Axis.rank (Axis.next hole.last) < Axis.rank other.first := (List.pairwise_cons.1 h.apart).1 other ho

/-- Holes that all begin after the range leave it as it is, even when it is inverted. -/
theorem cut_of_lt (h : ∀ hole ∈ holes, Axis.rank current.last < Axis.rank hole.first) :
    cut current holes = [current] := by
  cases holes with
  | nil => rfl
  | cons hole holes => rw [cut, if_pos ((Axis.before_iff _ _).2 (h hole List.mem_cons_self))]

variable (hnext : ∀ a : α, Axis.rank a ≤ Axis.rank (Axis.next a))
include hnext

theorem Merged.first_le_of_next (h : Merged (hole :: holes)) {other : Range α} (ho : other ∈ hole :: holes) :
    Axis.rank hole.first ≤ Axis.rank other.first := by
  rcases List.mem_cons.1 ho with rfl | ho
  · exact Int.le_refl _
  · have hvalid := h.valid_rank List.mem_cons_self
    have hapart := h.apart_head ho
    have hstep := hnext hole.last
    omega

/-! ## One hole more -/

omit hnext in
/-- A sliver lies beside a hole that begins no later than the range ends. -/
theorem Sliver.exists_le (hh : Merged holes) (h : Sliver current holes p) :
    ∃ hole ∈ holes, Axis.rank hole.first ≤ Axis.rank current.last := by
  cases h with
  | before _ hole _ heq _ _ _ hin _ => exact ⟨hole, by simp [heq], hin⟩
  | between _ _ other _ heq _ hin _ _ => exact ⟨other, by simp [heq], hin⟩
  | after hole ho _ hin _ _ =>
      have hvalid := hh.valid_rank ho
      exact ⟨hole, ho, by omega⟩

omit hnext in
/-- A hole before the range makes no difference. -/
theorem sliver_cons_of_lt (hh : Merged (hole :: holes)) (hlt : Axis.rank hole.last < Axis.rank current.first) :
    Sliver current (hole :: holes) p ↔ Sliver current holes p := by
  have hvalid := hh.valid_rank List.mem_cons_self
  constructor
  · intro h
    cases h with
    | before passed other later heq hpassed hnear hfirst hin hp =>
        cases passed with
        | nil =>
            cases heq
            omega
        | cons first passed =>
            exact .before passed other later (List.cons.inj heq).2 (List.forall_mem_cons.1 hpassed).2 hnear hfirst hin hp
    | between passed other another later heq hfirst hin hnear hp =>
        cases passed with
        | nil =>
            cases heq
            omega
        | cons first passed =>
            exact .between passed other another later (List.cons.inj heq).2 hfirst hin hnear hp
    | after other ho hfirst hin hnear hp =>
        rcases List.mem_cons.1 ho with rfl | ho
        · omega
        · exact .after other ho hfirst hin hnear hp
  · intro h
    cases h with
    | before passed other later heq hpassed hnear hfirst hin hp =>
        exact .before (hole :: passed) other later (by rw [heq]; rfl) (List.forall_mem_cons.2 ⟨hlt, hpassed⟩) hnear
          hfirst hin hp
    | between passed other another later heq hfirst hin hnear hp =>
        exact .between (hole :: passed) other another later (by rw [heq]; rfl) hfirst hin hnear hp
    | after other ho hfirst hin hnear hp => exact .after other (List.mem_cons_of_mem _ ho) hfirst hin hnear hp

/-- A hole that reaches into the range leaves a sliver before it, or all that is after it as one, or one of the rest. -/
theorem sliver_cons_of_le (hh : Merged (hole :: holes)) (hfirst : Axis.rank current.first ≤ Axis.rank hole.last)
    (hlast : Axis.rank hole.first ≤ Axis.rank current.last) :
    Sliver current (hole :: holes) p ↔
      (Axis.rank current.first < Axis.rank hole.first ∧ Axis.rank (Axis.prev hole.first) < Axis.rank current.first ∧
        p = ⟨current.first, Axis.prev hole.first⟩) ∨
      (Axis.rank hole.last < Axis.rank current.last ∧ Axis.rank current.last < Axis.rank (Axis.next hole.last) ∧
        p = ⟨Axis.next hole.last, current.last⟩) ∨
      Sliver ⟨Axis.next hole.last, current.last⟩ holes p := by
  have hstep := hnext hole.last
  constructor
  · intro h
    cases h with
    | before passed other later heq hpassed hnear hfirst' _ hp =>
        cases passed with
        | nil =>
            cases heq
            exact Or.inl ⟨hfirst', hnear, hp⟩
        | cons first passed =>
            obtain ⟨rfl, -⟩ := List.cons.inj heq
            have hpast := hpassed hole List.mem_cons_self
            omega
    | between passed other another later heq hfirst' hin hnear hp =>
        right; right
        cases passed with
        | nil =>
            -- the hole after this one is the first in the rest
            cases heq
            have hapart := hh.apart_head List.mem_cons_self
            exact .before [] another later rfl (by simp) hnear hapart hin hp
        | cons first passed =>
            obtain ⟨-, heq⟩ := List.cons.inj heq
            have ho : other ∈ holes := by simp [heq]
            have hapart := hh.apart_head ho
            have hvalid := hh.tail.valid_rank ho
            exact .between passed other another later heq (by simp only; omega) hin hnear hp
    | after other ho hfirst' hin hnear hp =>
        rcases List.mem_cons.1 ho with rfl | ho
        · exact Or.inr (Or.inl ⟨hin, hnear, hp⟩)
        · have hapart := hh.apart_head ho
          have hvalid := hh.tail.valid_rank ho
          exact Or.inr (Or.inr (.after other ho (by simp only; omega) hin hnear hp))
  · rintro (⟨hfirst', hnear, hp⟩ | ⟨hin, hnear, hp⟩ | h)
    · exact .before [] hole holes rfl (by simp) hnear hfirst' hlast hp
    · exact .after hole List.mem_cons_self hfirst hin hnear hp
    · cases h with
      | before passed other later heq hpassed hnear hfirst' hin hp =>
          -- no hole of the rest ends before the rest begins
          cases passed with
          | nil => exact .between [] hole other later (by rw [heq]; rfl) hfirst hin hnear hp
          | cons h passed =>
              have hm : h ∈ holes := by simp [heq]
              have hpast := hpassed h List.mem_cons_self
              have hapart := hh.apart_head hm
              have hvalid := hh.tail.valid_rank hm
              simp only at hpast
              omega
      | between passed other another later heq hfirst' hin hnear hp =>
          simp only at hfirst'
          exact .between (hole :: passed) other another later (by rw [heq]; rfl) (by omega) hin hnear hp
      | after other ho hfirst' hin hnear hp =>
          simp only at hfirst'
          exact .after other (List.mem_cons_of_mem _ ho) (by omega) hin hnear hp

/-! ## Cutting -/

omit hnext in
theorem mem_beforeHole_not_valid_iff : p ∈ beforeHole current hole ∧ p.valid = false ↔
    Axis.rank current.first < Axis.rank hole.first ∧ Axis.rank (Axis.prev hole.first) < Axis.rank current.first ∧
      p = ⟨current.first, Axis.prev hole.first⟩ := by
  simp only [beforeHole, Axis.before_iff]
  split
  · rename_i hlt
    rw [List.mem_singleton, not_valid_iff_rank]
    constructor
    · rintro ⟨rfl, hp⟩
      exact ⟨hlt, hp, rfl⟩
    · rintro ⟨-, hp, rfl⟩
      exact ⟨rfl, hp⟩
  · rename_i hge
    exact iff_of_false (fun h => List.not_mem_nil h.1) (fun h => hge h.1)

omit hnext in
theorem mem_whole_not_valid_iff (hc : current.valid = true) (hh : Merged holes)
    (hfar : ∀ hole ∈ holes, Axis.rank current.last < Axis.rank hole.first) :
    p ∈ [current] ∧ p.valid = false ↔ Sliver current holes p := by
  refine iff_of_false ?_ fun h => ?_
  · rintro ⟨hp, hpv⟩
    rw [List.mem_singleton.1 hp, hc] at hpv
    cases hpv
  · obtain ⟨hole, ho, hle⟩ := h.exists_le hh
    exact Int.not_le.2 (hfar hole ho) hle

/-- What is left after a hole is a sliver itself, or has slivers of its own. -/
theorem mem_afterHole_not_valid_iff (hh : Merged (hole :: holes))
    (hcut : ∀ rest : Range α, rest.valid = true → (p ∈ cut rest holes ∧ p.valid = false ↔ Sliver rest holes p)) :
    p ∈ afterHole current hole holes ∧ p.valid = false ↔
      (Axis.rank hole.last < Axis.rank current.last ∧ Axis.rank current.last < Axis.rank (Axis.next hole.last) ∧
        p = ⟨Axis.next hole.last, current.last⟩) ∨ Sliver ⟨Axis.next hole.last, current.last⟩ holes p := by
  have hstep := hnext hole.last
  simp only [afterHole, Axis.before_iff]
  split
  · rename_i hlt
    by_cases hrest : (⟨Axis.next hole.last, current.last⟩ : Range α).valid = true
    · rw [hcut _ hrest]
      refine (or_iff_right ?_).symm
      rintro ⟨-, hnear, -⟩
      exact absurd (valid_iff_rank.1 hrest) (Int.not_le.2 hnear)
    · -- nothing is left of the range, and the later holes begin after it
      have hnear := not_valid_iff_rank.1 (Bool.eq_false_iff.2 hrest)
      have hfar : ∀ other ∈ holes, Axis.rank current.last < Axis.rank other.first := fun other ho =>
        Int.lt_trans hnear (hh.apart_head ho)
      have hout : ¬ Sliver ⟨Axis.next hole.last, current.last⟩ holes p := fun h => by
        obtain ⟨other, ho, hle⟩ := h.exists_le hh.tail
        exact Int.not_le.2 (hfar other ho) hle
      have hwhole : cut ⟨Axis.next hole.last, current.last⟩ holes = [⟨Axis.next hole.last, current.last⟩] :=
        cut_of_lt hfar
      rw [hwhole, List.mem_singleton, not_valid_iff_rank, or_iff_left hout]
      constructor
      · rintro ⟨rfl, hp⟩
        exact ⟨hlt, hp, rfl⟩
      · rintro ⟨-, hp, rfl⟩
        exact ⟨rfl, hp⟩
  · rename_i hge
    refine iff_of_false (fun h => List.not_mem_nil h.1) ?_
    rintro (⟨hlt, -, -⟩ | h)
    · exact hge hlt
    · obtain ⟨other, ho, hle⟩ := h.exists_le hh.tail
      have hapart := hh.apart_head ho
      simp only at hle
      omega

/-- What is inverted after cutting is exactly the slivers. -/
theorem mem_cut_not_valid_iff (hc : current.valid = true) (hh : Merged holes) :
    p ∈ cut current holes ∧ p.valid = false ↔ Sliver current holes p := by
  induction holes generalizing current with
  | nil => exact mem_whole_not_valid_iff hc hh (by simp)
  | cons hole holes ih =>
      rw [cut_cons hc (hh.valid hole List.mem_cons_self)]
      split
      · rename_i hfar
        exact mem_whole_not_valid_iff hc hh fun h hm => Int.lt_of_lt_of_le hfar (hh.first_le_of_next hnext hm)
      · split
        · rename_i hpast
          rw [sliver_cons_of_lt hh hpast, ih hc hh.tail]
        · rename_i hfar hpast
          rw [sliver_cons_of_le hnext hh (by omega) (by omega), List.mem_append, or_and_right,
            mem_beforeHole_not_valid_iff, mem_afterHole_not_valid_iff hnext hh fun rest hrest => ih hrest hh.tail]

/-- What is inverted after taking away is exactly the slivers that the holes leave of the ranges, both merged. -/
theorem mem_exclude_not_valid_iff {ranges : List (Range α)} :
    p ∈ exclude ranges holes ∧ p.valid = false ↔ ∃ r ∈ merge ranges, Sliver r (merge holes) p := by
  have hholes := merged_merge holes
  have hranges := merged_merge ranges
  simp only [exclude, List.mem_flatMap]
  constructor
  · rintro ⟨⟨r, hr, hp⟩, hpv⟩
    exact ⟨r, hr, (mem_cut_not_valid_iff hnext (hranges.valid r hr) hholes).1 ⟨hp, hpv⟩⟩
  · rintro ⟨r, hr, h⟩
    obtain ⟨hp, hpv⟩ := (mem_cut_not_valid_iff hnext (hranges.valid r hr) hholes).2 h
    exact ⟨⟨r, hr, hp⟩, hpv⟩
end Axes

/-! ## Pieces of timestamps -/

section Pieces

open Timestamp (latest)

variable {length : Nat} {start last later : Timestamp} {pieces : List (Range Timestamp)} {r p : Range Timestamp}

/-- From the latest instant of the calendar cutting leads nowhere. -/
theorem Cuts.le_latest (h : Cuts length last latest pieces) : Axis.rank last ≤ Axis.rank latest := by
  generalize hstart : latest = start at h
  induction h with
  | @done start hnext =>
      rw [nextStart?_eq_none_iff] at hnext
      rwa [← hstart, Timestamp.advance_latest, hstart] at hnext
  | @more start later _ hnext _ ih =>
      obtain ⟨hlt, hlater⟩ := nextStart?_eq_some_iff.1 hnext
      rw [last_pieceAt_of_lt hlt, ← hstart, Timestamp.advance_latest, Timestamp.next_latest, hstart] at hlater
      subst hlater
      exact ih hstart

/-- A piece that another one follows is valid, where cutting comes to an end. -/
theorem Cuts.valid_head (hnext : nextStart? length last start = some later) (h : Cuts length last later pieces) :
    (pieceAt length last start).valid = true := by
  obtain ⟨hlt, hlater⟩ := nextStart?_eq_some_iff.1 hnext
  rw [last_pieceAt_of_lt hlt] at hlater
  rw [valid_iff_rank, last_pieceAt_of_lt hlt]
  rcases lt_or_ge latest.reading (start.reading + (min (length - 1) maxSigned : Nat) * 1000000) with hover | hroom
  · -- the piece ends with the calendar, from where cutting does not reach `last`
    have hend := Timestamp.advance_of_lt hover
    rw [hend] at hlt hlater
    rw [Timestamp.next_latest] at hlater
    exact absurd (hlater ▸ h).le_latest (Int.not_le.2 hlt)
  · have hmove := (Timestamp.advance_of_le hroom).rank_add_le
    show start.rank ≤ (Axis.advance start (length - 1)).rank
    omega

/-- Of the pieces at most the last is inverted: when cutting begins after its end, or when the piece before stops less
than a step short of it. -/
theorem Cuts.mem_not_valid_iff (h : Cuts length last start pieces) : p ∈ pieces ∧ p.valid = false ↔
    (Axis.rank last < Axis.rank start ∧ p = ⟨start, last⟩) ∨
      ∃ q ∈ pieces, Axis.rank q.last < Axis.rank last ∧ Axis.rank last < Axis.rank (Axis.next q.last) ∧
        p = ⟨Axis.next q.last, last⟩ := by
  induction h with
  | @done start hnext =>
      have hpiece : pieceAt length last start = ⟨start, last⟩ := congrArg (Range.mk start) (last_pieceAt hnext)
      simp only [hpiece, List.mem_singleton, exists_eq_left, Int.lt_irrefl, false_and, or_false, not_valid_iff_rank]
      constructor
      · rintro ⟨rfl, hp⟩
        exact ⟨hp, rfl⟩
      · rintro ⟨hp, rfl⟩
        exact ⟨rfl, hp⟩
  | @more start later pieces hnext hrest ih =>
      have hvalid := Cuts.valid_head hnext hrest
      obtain ⟨hlt, hlater⟩ := nextStart?_eq_some_iff.1 hnext
      rw [← last_pieceAt_of_lt hlt] at hlt
      have hstart : ¬ (Axis.rank last < Axis.rank start ∧ p = ⟨start, last⟩) := by
        have hle : Axis.rank start ≤ Axis.rank (pieceAt length last start).last := valid_iff_rank.1 hvalid
        omega
      have hhead : ¬ (p = pieceAt length last start ∧ p.valid = false) := by
        rintro ⟨rfl, hp⟩
        rw [hvalid] at hp
        cases hp
      rw [List.mem_cons, or_and_right, or_iff_right hhead, ih, ← hlater, or_iff_right hstart]
      simp only [List.mem_cons, exists_eq_or_imp, hlt, true_and]

/-- A piece stops less than a step short of the end of the range, and `p` is what follows it. -/
def Overshoot (r : Range Timestamp) (length : Nat) (p : Range Timestamp) : Prop :=
  ∃ q ∈ split r length, Axis.rank q.last < Axis.rank r.last ∧ Axis.rank r.last < Axis.rank (Axis.next q.last) ∧
    p = ⟨Axis.next q.last, r.last⟩

theorem mem_split_not_valid_iff (h : SplitEnds r length) :
    p ∈ split r length ∧ p.valid = false ↔ Overshoot r length p := by
  by_cases hv : r.valid = true
  · rw [(h.cuts hv).mem_not_valid_iff, or_iff_right fun hlt => Int.not_le.2 hlt.1 (valid_iff_rank.1 hv)]
    rfl
  · rw [Overshoot, split_of_not_valid hv]
    simp

theorem mem_splitAll_not_valid_iff {ranges : List (Range Timestamp)} (h : ∀ r ∈ ranges, SplitEnds r length) :
    p ∈ splitAll ranges length ∧ p.valid = false ↔ ∃ r ∈ ranges, Overshoot r length p := by
  simp only [splitAll, List.mem_flatMap]
  constructor
  · rintro ⟨⟨r, hr, hp⟩, hpv⟩
    exact ⟨r, hr, (mem_split_not_valid_iff (h r hr)).1 ⟨hp, hpv⟩⟩
  · rintro ⟨r, hr, hover⟩
    obtain ⟨hp, hpv⟩ := (mem_split_not_valid_iff (h r hr)).2 hover
    exact ⟨⟨r, hr, hp⟩, hpv⟩

theorem not_valid_iff_overshoot {ranges : List (Range Timestamp)} (h : ∀ r ∈ ranges, SplitEnds r length)
    (hp : p ∈ splitAll ranges length) : p.valid = false ↔ ∃ r ∈ ranges, Overshoot r length p := by
  rw [← mem_splitAll_not_valid_iff h]
  exact ⟨fun hv => ⟨hp, hv⟩, fun hv => hv.2⟩

end Pieces

/-! ## What is inverted -/

section Discrete

variable {α : Type} [Axis α] [DiscreteAxis α]

/-- On a discrete axis nothing comes out inverted. -/
theorem valid_of_discrete (a b : List (Range α)) (bounds : Range α) (length limit : Nat) (order : Order) :
    ∀ p ∈ merge a ++ exclude a b ++ clip a bounds ++ splitAll a length ++ takePieces a length limit order ++
      (todo bounds a b length limit).all, p.valid = true := by
  simp only [List.forall_mem_append, Todo.all]
  refine ⟨⟨⟨⟨⟨(merged_merge a).valid, (merged_exclude a b).valid⟩, (merged_clip a bounds).valid⟩,
    fun p hp => (mem_splitAll hp).1⟩, fun p hp => (mem_splitAll (mem_takePieces hp)).1⟩, ?_, ?_⟩
  · exact (newest_fresh_todo bounds a b length limit).valid
  · exact (newest_retries_todo bounds a b length limit).valid

end Discrete

/-- What is to be asked for next are pieces of what is left and of what is to be retried. -/
theorem mem_splitAll_of_mem_todo {α : Type} [Axis α] {full p : Range α} {covered toRetry : List (Range α)}
    {length limit : Nat} (hp : p ∈ (todo full covered toRetry length limit).all) :
    p ∈ splitAll (exclude [full] (covered ++ clip toRetry full) ++ clip toRetry full) length := by
  rw [splitAll, List.flatMap_append, List.mem_append]
  rw [todo] at hp
  split at hp
  · simp only [Todo.all, List.mem_append] at hp
    exact hp.imp mem_takePieces mem_takePieces
  · cases hp

/-- So many nanoseconds into 1970, less than a second. -/
def afterEpoch (nanos : Fin 1000000000) : Timestamp :=
  { Timestamp.epoch with
    nanos
    nanos_lt := Nat.lt_of_lt_of_le nanos.isLt (Nat.le_add_left 1000000000 1000000000) }

theorem splitEnds_afterEpoch (first last : Fin 1000000000) (length : Nat)
    (h : 2 ≤ length ∨ (Timestamp.latest.reading - (afterEpoch first).reading) % 1000000 ≤
      Timestamp.latest.reading - (afterEpoch last).reading) : SplitEnds ⟨afterEpoch first, afterEpoch last⟩ length := by
  have hlatest : ∀ nanos, Axis.rank (afterEpoch nanos) ≤ Axis.rank Timestamp.latest := by
    intro nanos
    have hseconds : (afterEpoch nanos).seconds = 0 := rfl
    have hnanos := (afterEpoch nanos).nanos_lt
    show (afterEpoch nanos).rank ≤ Timestamp.latest.rank
    simp only [Timestamp.latest, Timestamp.rank, hseconds]
    omega
  exact fun _ => (exists_cuts_iff (hlatest last) (hlatest first)).2 h

/-- No operation gives an inverted range of blocks. Of timestamps, merging and clipping give none either; taking away
gives exactly the slivers of less than a step that the holes leave; and where cutting comes to an end, the inverted
pieces are exactly those that begin after the end of their range, because the piece before stops less than a step short
of it. -/
theorem inverted_only_within_step (blocks others : List (Range UInt64)) (window : Range UInt64)
    (dates holes : List (Range Timestamp)) (bounds : Range Timestamp) (length limit : Nat) (order : Order) :
    let due := exclude [bounds] (dates ++ clip holes bounds) ++ clip holes bounds
    (∀ p ∈ merge blocks ++ exclude blocks others ++ clip blocks window ++ splitAll blocks length ++
      takePieces blocks length limit order ++ (todo window blocks others length limit).all, p.valid = true) ∧
    (∀ p ∈ merge dates ++ clip dates bounds, p.valid = true) ∧
    (∀ p, p ∈ exclude dates holes ∧ p.valid = false ↔ ∃ r ∈ merge dates, Sliver r (merge holes) p) ∧
    ((∀ r ∈ dates, SplitEnds r length) →
      (∀ p, p ∈ splitAll dates length ∧ p.valid = false ↔ ∃ r ∈ dates, Overshoot r length p) ∧
      ∀ p ∈ takePieces dates length limit order, p.valid = false ↔ ∃ r ∈ dates, Overshoot r length p) ∧
    ((∀ r ∈ due, SplitEnds r length) →
      ∀ p ∈ (todo bounds dates holes length limit).all, p.valid = false ↔ ∃ r ∈ due, Overshoot r length p) := by
  refine ⟨valid_of_discrete blocks others window length limit order, ?_, ?_, fun h => ⟨?_, ?_⟩, fun h p hp => ?_⟩
  · exact List.forall_mem_append.2 ⟨(merged_merge dates).valid, (merged_clip dates bounds).valid⟩
  · exact fun p => mem_exclude_not_valid_iff Timestamp.rank_le_next
  · exact fun p => mem_splitAll_not_valid_iff h
  · exact fun p hp => not_valid_iff_overshoot h (mem_takePieces hp)
  · exact not_valid_iff_overshoot h (mem_splitAll_of_mem_todo hp)

theorem inverted_only_within_step_halves :
    let part : Range Timestamp := ⟨afterEpoch 0, afterEpoch 1500000⟩
    let full : Range Timestamp := ⟨afterEpoch 0, afterEpoch 10000000⟩
    let due := exclude [full] ([part] ++ clip [] full) ++ clip [] full
    SplitEnds part 1 ∧ Overshoot part 1 ⟨afterEpoch 2000000, afterEpoch 1500000⟩ ∧
    (∀ r ∈ due, SplitEnds r 1) ∧
    ∀ p ∈ (todo full [part] [] 1 20).all, p.valid = false ↔ ∃ r ∈ due, Overshoot r 1 p := by
  intro part full due
  have hpart : SplitEnds part 1 := splitEnds_afterEpoch 0 1500000 1 (Or.inr (by decide +kernel))
  have hdue : due = [⟨afterEpoch 2500000, afterEpoch 10000000⟩] := by decide +kernel
  have hends : ∀ r ∈ due, SplitEnds r 1 := by
    rw [hdue, List.forall_mem_singleton]
    exact splitEnds_afterEpoch 2500000 10000000 1 (Or.inr (by decide +kernel))
  obtain ⟨-, -, -, hsplit, htodo⟩ := inverted_only_within_step [] [] ⟨0, 0⟩ [part] [] full 1 20 .newestFirst
  have hover := ((hsplit (List.forall_mem_singleton.2 hpart)).1 ⟨afterEpoch 2000000, afterEpoch 1500000⟩).1
    ⟨by decide +kernel, by decide +kernel⟩
  obtain ⟨r, hr, hover⟩ := hover
  exact ⟨hpart, List.mem_singleton.1 hr ▸ hover, hends, htodo hends⟩

/-- A hole that begins half a millisecond after the range leaves an inverted range before it, and one and a half
milliseconds fall into three pieces of one, the last of them inverted. -/
theorem inverted_half_millisecond :
    exclude [⟨afterEpoch 0, afterEpoch 10000000⟩] [⟨afterEpoch 500000, afterEpoch 5000000⟩] =
      [⟨afterEpoch 0, Axis.prev (afterEpoch 500000)⟩, ⟨afterEpoch 6000000, afterEpoch 10000000⟩] ∧
    (⟨afterEpoch 0, Axis.prev (afterEpoch 500000)⟩ : Range Timestamp).valid = false ∧
    SplitEnds ⟨afterEpoch 0, afterEpoch 1500000⟩ 1 ∧
    splitAll [⟨afterEpoch 0, afterEpoch 1500000⟩] 1 =
      [⟨afterEpoch 0, afterEpoch 0⟩, ⟨afterEpoch 1000000, afterEpoch 1000000⟩,
        ⟨afterEpoch 2000000, afterEpoch 1500000⟩] ∧
    (⟨afterEpoch 2000000, afterEpoch 1500000⟩ : Range Timestamp).valid = false := by
  refine ⟨by decide +kernel, by decide +kernel, splitEnds_afterEpoch 0 1500000 1 (Or.inr (by decide +kernel)),
    by decide +kernel, by decide +kernel⟩

end Backfill.Range
