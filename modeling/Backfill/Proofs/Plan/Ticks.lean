import Backfill.Proofs.Plan.Samples
import Backfill.Proofs.Timestamp.Grid
import Mathlib.Data.List.Infix

/-!
# Samples on a regular grid

Interpolation goes along the pairs of neighbours, and within a usable pair from tick to tick. All pairs share one
tick: each goes on where the one before it stopped, and a pair that is skipped leaves it alone. So the samples stand in
ascending order on the grid that begins with the first known one, in whatever order these are; where the known ones
ascend, no point of the grid before the last of them is left out.
-/

namespace Backfill.Plan

open Timestamp (OnGrid GridReaches onGrid_self onGrid_iff_of_step rank_lt_of_step)

variable {a b first : Sample} {step interval : Nat} {tick last t : Timestamp} {known rest found result : List Sample}

/-- The first sample is older than the second one. -/
def Sample.Before (x y : Sample) : Prop := x.time.rank < y.time.rank

/-! ## Up to one sample -/

/-- What a pair of samples gives for a tick: before both of them it gives nothing. -/
def sampleAt (a b : Sample) (tick : Timestamp) : List Sample := if a.time ≤ tick then [a.between b tick] else []

/-- Going from tick to tick until one is not before `b` gives these samples and stops at this tick, however many ticks
that takes. From the last tick of the calendar there is no going on. -/
inductive TicksUpTo (a b : Sample) (step : Nat) : Timestamp → List Sample → Timestamp → Prop
  | done {tick : Timestamp} : b.time.rank ≤ tick.rank → TicksUpTo a b step tick [] tick
  | more {tick next last : Timestamp} {found : List Sample} : tick.rank < b.time.rank →
      tick.addNanos? step = some next → TicksUpTo a b step next found last →
      TicksUpTo a b step tick (sampleAt a b tick ++ found) last

theorem mem_sampleAt : t ∈ (sampleAt a b tick).map Sample.time ↔ t = tick ∧ a.time.rank ≤ tick.rank := by
  unfold sampleAt
  split
  · rename_i hle
    rw [List.map_singleton, List.mem_singleton]
    exact (and_iff_left hle).symm
  · rename_i hlt
    exact iff_of_false List.not_mem_nil fun h => hlt h.2

namespace TicksUpTo

theorem mem_iff (h : TicksUpTo a b step tick found last) :
    t ∈ found.map Sample.time ↔ OnGrid tick step t ∧ a.time.rank ≤ t.rank ∧ t.rank < b.time.rank := by
  induction h with
  | done hdone =>
      refine iff_of_false List.not_mem_nil ?_
      rintro ⟨hgrid, -, hlt⟩
      have := hgrid.rank_le
      omega
  | more hbefore hnext _ ih =>
      rw [List.map_append, List.mem_append, mem_sampleAt, ih, onGrid_iff_of_step hnext]
      constructor
      · rintro (⟨rfl, ha⟩ | ⟨hgrid, hbounds⟩)
        · exact ⟨Or.inl rfl, ha, hbefore⟩
        · exact ⟨Or.inr hgrid, hbounds⟩
      · rintro ⟨rfl | hgrid, ha, hb⟩
        · exact Or.inl ⟨rfl, ha⟩
        · exact Or.inr ⟨hgrid, ha, hb⟩

/-- The grid goes on at the tick that is left, with all its points from `b` on. -/
theorem onGrid_iff (h : TicksUpTo a b step tick found last) :
    OnGrid last step t ↔ OnGrid tick step t ∧ b.time.rank ≤ t.rank := by
  induction h with
  | done hdone => exact (and_iff_left_of_imp fun hgrid => Int.le_trans hdone hgrid.rank_le).symm
  | more hbefore hnext _ ih =>
      rw [ih, onGrid_iff_of_step hnext]
      refine and_congr_left fun hb => ⟨Or.inr, ?_⟩
      rintro (rfl | hgrid)
      · omega
      · exact hgrid

theorem ascending (hstep : 0 < step) (h : TicksUpTo a b step tick found last) : found.Pairwise Sample.Before := by
  induction h with
  | done _ => exact .nil
  | @more tick next last found _ hnext hrest ih =>
      rw [List.pairwise_append]
      refine ⟨?_, ih, ?_⟩
      · unfold sampleAt
        split
        · exact List.pairwise_singleton ..
        · exact .nil
      · intro x hx y hy
        obtain ⟨hx, -⟩ := mem_sampleAt.1 (List.mem_map_of_mem hx)
        have hgrid := (hrest.mem_iff.1 (List.mem_map_of_mem hy)).1
        rw [Sample.Before, hx]
        exact Int.lt_of_lt_of_le (rank_lt_of_step hstep hnext) hgrid.rank_le

theorem gridReaches (h : TicksUpTo a b step tick found last) : GridReaches tick step b.time := by
  induction h with
  | done hdone =>
      intro t hgrid hlt
      have := hgrid.rank_le
      omega
  | more _ hnext _ ih =>
      intro t hgrid hlt
      rcases (onGrid_iff_of_step hnext).1 hgrid with rfl | hlater
      · exact ⟨_, hnext⟩
      · exact ih t hlater hlt

theorem ticksUpTo_eq (hstep : 0 < step) (h : TicksUpTo a b step tick found last) {fuel : Nat}
    (hfuel : b.time.rank - tick.rank < fuel) : ticksUpTo a b step fuel tick = (found, last) := by
  induction h generalizing fuel with
  | done hdone =>
      cases fuel with
      | zero => rfl
      | succ fuel => exact if_pos hdone
  | @more tick next last found hbefore hnext _ ih =>
      cases fuel with
      | zero => omega
      | succ fuel =>
          have hcloser := rank_lt_of_step hstep hnext
          have hnot : ¬ b.time ≤ tick := Int.not_le.2 hbefore
          rw [ticksUpTo, if_neg hnot, hnext, Option.elim_some, ih (by omega)]
          rfl

end TicksUpTo

theorem exists_ticksUpTo_iff (hstep : 0 < step) :
    (∃ found last, TicksUpTo a b step tick found last) ↔ GridReaches tick step b.time := by
  refine ⟨fun ⟨_, _, h⟩ => h.gridReaches, fun hreach => ?_⟩
  generalize hn : (b.time.rank - tick.rank).toNat = n
  induction n using Nat.strongRecOn generalizing tick with
  | ind n ih =>
      by_cases hdone : b.time.rank ≤ tick.rank
      · exact ⟨[], tick, .done hdone⟩
      · have hbefore := Int.not_le.1 hdone
        obtain ⟨next, hnext⟩ := hreach tick (onGrid_self ..) hbefore
        have hcloser := rank_lt_of_step hstep hnext
        have hreach : GridReaches next step b.time := fun t hgrid =>
          hreach t ((onGrid_iff_of_step hnext).2 (Or.inr hgrid))
        obtain ⟨found, last, h⟩ := ih _ (by omega) hreach rfl
        exact ⟨_, last, .more hbefore hnext h⟩

/-! ## Along all pairs -/

/-- Going along the pairs of neighbours, with this tick to begin with, gives these samples, however many ticks that
takes. -/
inductive Ticks (step : Nat) : List Sample → Timestamp → List Sample → Prop
  | nil {tick : Timestamp} : Ticks step [] tick []
  | single {a : Sample} {tick : Timestamp} : Ticks step [a] tick []
  | skipped {a b : Sample} {rest found : List Sample} {tick : Timestamp} : ¬ usable a b = true →
      Ticks step (b :: rest) tick found → Ticks step (a :: b :: rest) tick found
  | used {a b : Sample} {rest found later : List Sample} {tick next : Timestamp} : usable a b = true →
      TicksUpTo a b step tick found next → Ticks step (b :: rest) next later →
      Ticks step (a :: b :: rest) tick (found ++ later)

/-- In each usable pair, no point of the grid before the second sample is the last one in the calendar. -/
def KeepsTicks (step : Nat) (known : List Sample) (tick : Timestamp) : Prop :=
  ∀ a b, [a, b] <:+: known → usable a b = true → GridReaches tick step b.time

theorem keepsTicks_of_length_le (h : known.length ≤ 1) : KeepsTicks step known tick := by
  intro a b hpair
  have := hpair.length_le
  simp at this
  omega

theorem keepsTicks_of_room (h : ∀ b ∈ known, b.time.reading + giga + step ≤ Timestamp.latest.reading)
    (tick : Timestamp) : KeepsTicks step known tick :=
  fun _ b hpair _ => Timestamp.gridReaches_of_room (h b (hpair.subset (by simp)))

theorem keepsTicks_cons_cons : KeepsTicks step (a :: b :: rest) tick ↔
    (usable a b = true → GridReaches tick step b.time) ∧ KeepsTicks step (b :: rest) tick := by
  constructor
  · intro h
    exact ⟨h a b (List.prefix_append [a, b] rest).isInfix, fun x y hpair => h x y (List.infix_cons hpair)⟩
  · rintro ⟨hpair, hrest⟩ x y hxy
    rcases List.infix_cons_iff.1 hxy with hfront | hlater
    · obtain ⟨rfl, hy⟩ := List.cons_prefix_cons.1 hfront
      obtain ⟨rfl, -⟩ := List.cons_prefix_cons.1 hy
      exact hpair
    · exact hrest x y hlater

/-- What is before `b` has been reached, so only the rest of the grid matters. -/
theorem TicksUpTo.keepsTicks_iff (h : TicksUpTo a b step tick found last) :
    KeepsTicks step known last ↔ KeepsTicks step known tick := by
  refine forall₄_congr fun x y _ _ => ⟨fun hreach t hgrid hlt => ?_, fun hreach t hgrid => ?_⟩
  · by_cases hb : b.time.rank ≤ t.rank
    · exact hreach t (h.onGrid_iff.2 ⟨hgrid, hb⟩) hlt
    · exact h.gridReaches t hgrid (Int.not_le.1 hb)
  · exact hreach t (h.onGrid_iff.1 hgrid).1

theorem exists_ticks_iff (hstep : 0 < step) : (∃ found, Ticks step known tick found) ↔ KeepsTicks step known tick := by
  induction known generalizing tick with
  | nil => exact iff_of_true ⟨[], .nil⟩ (keepsTicks_of_length_le (by simp))
  | cons a rest ih =>
      cases rest with
      | nil => exact iff_of_true ⟨[], .single⟩ (keepsTicks_of_length_le (by simp))
      | cons b rest =>
          rw [keepsTicks_cons_cons]
          constructor
          · rintro ⟨_, h⟩
            cases h with
            | skipped hskip hrest => exact ⟨fun huse => absurd huse hskip, ih.1 ⟨_, hrest⟩⟩
            | used huse hpair hrest =>
                exact ⟨fun _ => hpair.gridReaches, hpair.keepsTicks_iff.1 (ih.1 ⟨_, hrest⟩)⟩
          · rintro ⟨hpair, hrest⟩
            by_cases huse : usable a b = true
            · obtain ⟨found, next, hpair⟩ := (exists_ticksUpTo_iff (a := a) hstep).2 (hpair huse)
              obtain ⟨later, hlater⟩ := ih.2 (hpair.keepsTicks_iff.2 hrest)
              exact ⟨_, .used huse hpair hlater⟩
            · obtain ⟨found, hfound⟩ := ih.2 hrest
              exact ⟨found, .skipped huse hfound⟩

theorem rank_le_getLastD (h : (first :: rest).IsChain Apart) : first.time.rank ≤ (rest.getLastD first).time.rank := by
  induction rest generalizing first with
  | nil => exact Int.le_refl _
  | cons b rest ih =>
      obtain ⟨hapart, hrest⟩ := List.isChain_cons_cons.1 h
      rw [List.getLastD_cons]
      exact Int.le_trans (Int.le_of_lt hapart.before) (ih hrest)

namespace Ticks

theorem ticks_eq (hstep : 0 < step) (h : Ticks step known tick found) : ticks step known tick = found := by
  induction h with
  | nil => rfl
  | single => rfl
  | skipped hskip _ ih => rw [ticks, if_neg hskip, ih]
  | @used a b rest found later tick next huse hpair _ ih =>
      have hfuel : b.time.rank - tick.rank < ((b.time.rank - tick.rank).toNat + 1 : Nat) := by omega
      have heq := hpair.ticksUpTo_eq hstep hfuel
      rw [ticks, if_pos huse, ← ih]
      exact congrArg (fun r : List Sample × Timestamp => r.1 ++ ticks step (b :: rest) r.2) heq

theorem onGrid (h : Ticks step known tick found) : ∀ x ∈ found, OnGrid tick step x.time := by
  induction h with
  | nil => exact fun x hx => absurd hx List.not_mem_nil
  | single => exact fun x hx => absurd hx List.not_mem_nil
  | skipped _ _ ih => exact ih
  | used _ hpair _ ih =>
      intro x hx
      rcases List.mem_append.1 hx with hx | hx
      · exact (hpair.mem_iff.1 (List.mem_map_of_mem hx)).1
      · exact (hpair.onGrid_iff.1 (ih x hx)).1

theorem ascending (hstep : 0 < step) (h : Ticks step known tick found) : found.Pairwise Sample.Before := by
  induction h with
  | nil => exact .nil
  | single => exact .nil
  | skipped _ _ ih => exact ih
  | used _ hpair hrest ih =>
      refine List.pairwise_append.2 ⟨hpair.ascending hstep, ih, fun x hx y hy => ?_⟩
      -- the second sample of the pair separates its ticks from the later ones
      have hx := (hpair.mem_iff.1 (List.mem_map_of_mem hx)).2.2
      have hy := (hpair.onGrid_iff.1 (hrest.onGrid y hy)).2
      exact Int.lt_of_lt_of_le hx hy

/-- Where neighbours are apart and the ticks begin no earlier than the samples, no tick before the last one is left
out. -/
theorem mem_iff (hchain : (first :: rest).IsChain Apart) (hfirst : first.time.rank ≤ tick.rank)
    (h : Ticks step (first :: rest) tick found) :
    t ∈ found.map Sample.time ↔ OnGrid tick step t ∧ t.rank < (rest.getLastD first).time.rank := by
  induction rest generalizing first tick found with
  | nil =>
      cases h
      refine iff_of_false List.not_mem_nil ?_
      rintro ⟨hgrid, hlt⟩
      have hle := hgrid.rank_le
      simp only [List.getLastD_nil] at hlt
      omega
  | cons b rest ih =>
      obtain ⟨hapart, hchain⟩ := List.isChain_cons_cons.1 hchain
      have hb := rank_le_getLastD hchain
      rw [List.getLastD_cons]
      cases h with
      | skipped hskip _ => exact absurd hapart.usable hskip
      | @used _ _ _ found later _ next _ hpair hrest =>
          have hnext : b.time.rank ≤ next.rank := (hpair.onGrid_iff.1 (onGrid_self ..)).2
          rw [List.map_append, List.mem_append, hpair.mem_iff, ih hchain hnext hrest, hpair.onGrid_iff]
          constructor
          · rintro (⟨hgrid, -, hlt⟩ | ⟨⟨hgrid, -⟩, hlt⟩)
            · exact ⟨hgrid, Int.lt_of_lt_of_le hlt hb⟩
            · exact ⟨hgrid, hlt⟩
          · rintro ⟨hgrid, hlt⟩
            rcases Int.lt_or_le t.rank b.time.rank with hbefore | hafter
            · exact Or.inl ⟨hgrid, Int.le_trans hfirst hgrid.rank_le, hbefore⟩
            · exact Or.inr ⟨⟨hgrid, hafter⟩, hlt⟩

end Ticks

/-! ## With the last known sample -/

/-- The last known sample ends the samples if it is newer than all of them. -/
def closedBy (last : Sample) (found : List Sample) : List Sample :=
  if found.getLast?.all (fun newest => Axis.before newest.time last.time) then found ++ [last] else found

/-- Interpolating these known samples comes to an end with this result, however many ticks that takes. -/
inductive Interpolates (interval : Nat) : List Sample → List Sample → Prop
  | nil : Interpolates interval [] []
  | cons {first : Sample} {rest found : List Sample} : Ticks interval (first :: rest) first.time found →
      Interpolates interval (first :: rest) (closedBy (rest.getLastD first) found)

/-- Interpolation comes to an end exactly if the calendar has room for every tick that is needed. -/
theorem exists_interpolates_iff (hpos : 0 < interval) :
    (∃ result, Interpolates interval known result) ↔ ∀ first ∈ known.head?, KeepsTicks interval known first.time := by
  cases known with
  | nil => exact iff_of_true ⟨[], .nil⟩ (by simp)
  | cons first rest =>
      simp only [List.head?_cons, Option.mem_some_iff, forall_eq', ← exists_ticks_iff hpos]
      constructor
      · rintro ⟨_, h⟩
        cases h with
        | cons h => exact ⟨_, h⟩
      · rintro ⟨_, h⟩
        exact ⟨_, .cons h⟩

theorem Interpolates.interpolate_eq (hpos : 0 < interval) (hlong : interval ≤ Timestamp.longest)
    (h : Interpolates interval known result) : interpolate known interval = result := by
  cases h with
  | nil => rfl
  | @cons first rest found h =>
      have hfits : ¬ (interval = 0 ∨ Timestamp.longest < interval) := by omega
      simp only [interpolate, if_neg hfits, h.ticks_eq hpos, List.getLastD_cons, closedBy]
      cases found.getLast? with
      | none => rfl
      | some newest => rfl

theorem pairwise_closedBy {last : Sample} (h : found.Pairwise Sample.Before) :
    (closedBy last found).Pairwise Sample.Before := by
  unfold closedBy
  split
  · rename_i hnewer
    refine List.pairwise_append.2 ⟨h, List.pairwise_singleton .., fun x hx y hy => ?_⟩
    rw [List.mem_singleton.1 hy]
    cases hend : found.getLast? with
    | none =>
        rw [List.getLast?_eq_none_iff.1 hend] at hx
        exact absurd hx List.not_mem_nil
    | some newest =>
        rw [hend, Option.all_some, Axis.before_iff] at hnewer
        obtain ⟨front, rfl⟩ := List.getLast?_eq_some_iff.1 hend
        rcases List.mem_append.1 hx with hx | hx
        · exact Int.lt_trans ((List.pairwise_append.1 h).2.2 x hx newest (List.mem_singleton_self _)) hnewer
        · rwa [List.mem_singleton.1 hx]
  · exact h

theorem mem_of_mem_dropLast_closedBy {x last : Sample} (h : x ∈ (closedBy last found).dropLast) : x ∈ found := by
  unfold closedBy at h
  split at h
  · rwa [List.dropLast_concat] at h
  · exact List.mem_of_mem_dropLast h

theorem closedBy_of_forall {last : Sample} (h : ∀ x ∈ found, x.Before last) :
    closedBy last found = found ++ [last] := by
  refine if_pos ?_
  rw [Option.all_eq_true]
  exact fun newest hnewest => (Axis.before_iff _ _).2 (h newest (List.mem_of_getLast? hnewest))

/-- The time of the first known sample or a whole number of intervals after it. -/
def OnTicks (known : List Sample) (interval : Nat) (t : Timestamp) : Prop :=
  ∃ first ∈ known.head?, OnGrid first.time interval t

namespace Interpolates

theorem ascending (hpos : 0 < interval) (h : Interpolates interval known result) :
    result.Pairwise Sample.Before := by
  cases h with
  | nil => exact .nil
  | cons h => exact pairwise_closedBy (h.ascending hpos)

theorem onTicks (h : Interpolates interval known result) : ∀ x ∈ result.dropLast, OnTicks known interval x.time := by
  cases h with
  | nil => exact fun x hx => absurd hx List.not_mem_nil
  | cons h => exact fun x hx => ⟨_, rfl, h.onGrid x (mem_of_mem_dropLast_closedBy hx)⟩

theorem all_ticks (hchain : known.IsChain Apart) (h : Interpolates interval known result) :
    ∀ last ∈ known.getLast?, ∃ found, result = found ++ [last] ∧
      ∀ t, t ∈ found.map Sample.time ↔ OnTicks known interval t ∧ t.rank < last.time.rank := by
  cases h with
  | nil => exact fun last hlast => absurd hlast (by simp)
  | @cons first rest found h =>
      intro last hlast
      obtain rfl : rest.getLastD first = last := by
        rw [List.getLastD_eq_getLast?]
        simpa [List.getLast?_cons] using hlast
      have hmem : ∀ t, t ∈ found.map Sample.time ↔
          OnGrid first.time interval t ∧ t.rank < (rest.getLastD first).time.rank :=
        fun t => h.mem_iff hchain (Int.le_refl _)
      refine ⟨found, closedBy_of_forall fun x hx => ((hmem x.time).1 (List.mem_map_of_mem hx)).2, fun t => ?_⟩
      rw [hmem]
      simp [OnTicks]

end Interpolates

/-- Interpolation comes to an end if the interval is positive, not too long to be added, and leaves room in the calendar
for every tick that is needed. The times then ascend, and all but the last lie on the grid that begins with the first
known sample. Where the known samples ascend, with a millisecond or more from each to the next, and their numbers never
fall, these are all the points of the grid before the last known sample, and that one comes last. -/
theorem ticks_on_grid (known : List Sample) {interval : Nat} (hpos : 0 < interval)
    (hlong : interval ≤ Timestamp.longest)
    (hticks : ∀ first ∈ known.head?, KeepsTicks interval known first.time) :
    (∀ result, Interpolates interval known result ↔ result = interpolate known interval) ∧
    (interpolate known interval).Pairwise (fun x y => x.time.rank < y.time.rank) ∧
    (∀ x ∈ (interpolate known interval).dropLast, OnTicks known interval x.time) ∧
    (known.IsChain (fun a b => a.time.rank < b.time.rank ∧ 1 ≤ b.time.millisSince a.time ∧ a.number ≤ b.number) →
      ∀ last ∈ known.getLast?, ∃ found, interpolate known interval = found ++ [last] ∧
        ∀ t, t ∈ found.map Sample.time ↔ OnTicks known interval t ∧ t.rank < last.time.rank) := by
  obtain ⟨result, hresult⟩ := (exists_interpolates_iff hpos).2 hticks
  have heq := hresult.interpolate_eq hpos hlong
  rw [heq]
  refine ⟨fun other => ⟨fun h => ?_, fun h => h ▸ hresult⟩, hresult.ascending hpos, hresult.onTicks, fun hchain => ?_⟩
  · exact (h.interpolate_eq hpos hlong).symm.trans heq
  · refine hresult.all_ticks (hchain.imp ?_)
    rintro a b ⟨hbefore, hapart, hclimb⟩
    refine ⟨?_, hbefore⟩
    simp only [usable, Bool.and_eq_true, decide_eq_true_eq]
    exact ⟨hapart, hclimb⟩

/-- So many minutes after 1970 began. -/
def minute (n : Nat) : Timestamp := Timestamp.epoch.after (n * 60 * giga)

/-- Three blocks within half an hour. -/
def halfHour : List Sample := [⟨100, minute 0⟩, ⟨220, minute 12⟩, ⟨480, minute 25⟩]

theorem ticks_on_grid_halfHour :
    0 < 600 * giga ∧ 600 * giga ≤ Timestamp.longest ∧
    (∀ first ∈ halfHour.head?, KeepsTicks (600 * giga) halfHour first.time) ∧
    halfHour.IsChain (fun a b => a.time.rank < b.time.rank ∧ 1 ≤ b.time.millisSince a.time ∧ a.number ≤ b.number) ∧
    Interpolates (600 * giga) halfHour (interpolate halfHour (600 * giga)) ∧
    ∃ found, interpolate halfHour (600 * giga) = found ++ [⟨480, minute 25⟩] ∧
      minute 20 ∈ found.map Sample.time := by
  have hpos : 0 < 600 * giga := by decide
  have hlong : 600 * giga ≤ Timestamp.longest := by decide
  have hticks : ∀ first ∈ halfHour.head?, KeepsTicks (600 * giga) halfHour first.time :=
    fun first _ => keepsTicks_of_room (by decide) first.time
  have hchain : halfHour.IsChain fun a b =>
      a.time.rank < b.time.rank ∧ 1 ≤ b.time.millisSince a.time ∧ a.number ≤ b.number := by
    decide
  obtain ⟨hends, -, -, hall⟩ := ticks_on_grid halfHour hpos hlong hticks
  obtain ⟨found, hfound, hmem⟩ := hall hchain ⟨480, minute 25⟩ rfl
  have hsecond : OnTicks halfHour (600 * giga) (minute 20) := ⟨_, rfl, 2, by decide⟩
  exact ⟨hpos, hlong, hticks, hchain, (hends _).2 rfl, found, hfound, (hmem _).2 ⟨hsecond, by decide⟩⟩

-- The sample that is out of order spoils its pair; the ticks go on in the next one.
example : (interpolate [⟨100, minute 0⟩, ⟨480, minute 25⟩, ⟨220, minute 12⟩, ⟨550, minute 32⟩] (600 * giga)).map
    Sample.time = [minute 0, minute 10, minute 20, minute 30, minute 32] := by
  decide +kernel

/-! ## Whether interpolation returns -/

/-- Interpolation returns these samples: the known ones, at an interval that makes no ticks, and otherwise what the
ticks give if they come to an end. -/
inductive Returns (interval : Nat) (known : List Sample) : List Sample → Prop
  | unticked : interval = 0 ∨ Timestamp.longest < interval → Returns interval known known
  | ticked {result : List Sample} : 0 < interval → interval ≤ Timestamp.longest → Interpolates interval known result →
      Returns interval known result

/-- Where ticks are made at all, no tick that is needed lies past the end of the calendar. -/
def TicksFit (interval : Nat) (known : List Sample) : Prop :=
  0 < interval → interval ≤ Timestamp.longest → ∀ first ∈ known.head?, KeepsTicks interval known first.time

theorem ticksFit_of_room (h : ∀ b ∈ known, b.time.reading + giga + interval ≤ Timestamp.latest.reading) :
    TicksFit interval known :=
  fun _ _ first _ => keepsTicks_of_room h first.time

theorem Returns.eq_interpolate (h : Returns interval known result) : result = interpolate known interval := by
  cases h with
  | unticked hunticked =>
      cases known with
      | nil => rfl
      | cons first rest => rw [interpolate, if_pos hunticked]
  | ticked hpos hlong h => exact (h.interpolate_eq hpos hlong).symm

theorem exists_returns_iff : (∃ result, Returns interval known result) ↔ TicksFit interval known := by
  constructor
  · rintro ⟨result, h⟩ hpos hlong
    cases h with
    | unticked hunticked => omega
    | ticked _ _ h => exact (exists_interpolates_iff hpos).1 ⟨result, h⟩
  · intro hfit
    by_cases hticks : 0 < interval ∧ interval ≤ Timestamp.longest
    · obtain ⟨result, h⟩ := (exists_interpolates_iff hticks.1).2 (hfit hticks.1 hticks.2)
      exact ⟨result, .ticked hticks.1 hticks.2 h⟩
    · exact ⟨known, .unticked (by omega)⟩

/-- What interpolation returns is what is computed, and it returns if the ticks fit into the calendar. -/
theorem returns_iff (h : TicksFit interval known) :
    Returns interval known result ↔ result = interpolate known interval := by
  refine ⟨Returns.eq_interpolate, ?_⟩
  rintro rfl
  obtain ⟨result, hresult⟩ := exists_returns_iff.2 h
  exact hresult.eq_interpolate ▸ hresult

end Backfill.Plan
