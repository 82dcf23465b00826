import Backfill.Proofs.Runner.Schedule
import Backfill.Proofs.Weights.Acceptance
import Mathlib.Algebra.Order.Floor.Semifield
import Mathlib.Data.Rat.Floor

/-!
# Delays and the start of a runner

A provider without a weight of its own weighs a million over its delay in milliseconds, to the nearest whole number.
A longer delay never weighs more, and one beyond two million milliseconds weighs nothing. As no branch may have the
weight 0, a runner starts just when none of its providers has such a delay; else it refuses at the first one.
-/

namespace Backfill

/-! ## Rounding -/

namespace Rounding

theorem nearestUp_eq_floor (n : Nat) {d : Nat} (hd : 0 < d) : nearestUp n d = ⌊(n : ℚ) / d + 1 / 2⌋₊ := by
  have hd' : (d : ℚ) ≠ 0 := Nat.cast_ne_zero.2 (Nat.ne_of_gt hd)
  have hsum : (n : ℚ) / d + 1 / 2 = ((2 * n + d : Nat) : ℚ) / ((2 * d : Nat) : ℚ) := by
    push_cast
    field_simp
  rw [hsum, Nat.floor_div_eq_div, nearestUp]

theorem nearestUp_anti (n : Nat) {d e : Nat} (hd : 0 < d) (h : d ≤ e) : nearestUp n e ≤ nearestUp n d := by
  rw [nearestUp_eq_floor n hd, nearestUp_eq_floor n (Nat.lt_of_lt_of_le hd h)]
  have hdpos : (0 : ℚ) < d := Nat.cast_pos.2 hd
  exact Nat.floor_mono (by gcongr)

theorem nearestUp_pos_iff (n : Nat) {d : Nat} (hd : 0 < d) : 0 < nearestUp n d ↔ d ≤ 2 * n := by
  rw [nearestUp, Nat.div_pos_iff]
  omega

end Rounding

/-! ## Weights of delays -/

/-- A delay is at most another one; no delay is at most every delay. -/
inductive MinDelay.AtMost : MinDelay → MinDelay → Prop
  | noLimit (d : MinDelay) : AtMost .noLimit d
  | millis {a b : UInt64} : a ≤ b → AtMost (.millis a) (.millis b)

/-- The longest delay with a weight, two million milliseconds. -/
def MinDelay.longest : MinDelay := .millis 2000000

namespace Limitations

section Weights

variable {l l' : Limitations} {ms : UInt64}

theorem providerWeight_of_noLimit (hw : l.weight = none) (hd : l.minDelay = .noLimit) :
    l.providerWeight = unlimitedWeight := by
  rw [providerWeight, hw, hd]

theorem floored_pos (ms : UInt64) : 0 < max ms.toNat delayFloor :=
  Nat.lt_of_lt_of_le (by decide) (Nat.le_max_right ..)

theorem nearestUp_le (ms : UInt64) : Rounding.nearestUp 1000000 (max ms.toNat delayFloor) ≤ 2000 :=
  Rounding.nearestUp_anti 1000000 (by decide) (Nat.le_max_right ..)

theorem toNat_providerWeight_of_millis (hw : l.weight = none) (hd : l.minDelay = .millis ms) :
    l.providerWeight.toNat = Rounding.nearestUp 1000000 (max ms.toNat delayFloor) := by
  have hle := nearestUp_le ms
  rw [providerWeight, hw, hd]
  exact Branches.toNat_toUInt64 (hle.trans (by decide))

theorem toNat_providerWeight_le (hw : l.weight = none) : l.providerWeight.toNat ≤ 10000 := by
  cases hd : l.minDelay with
  | noLimit => exact Nat.le_of_eq (congrArg UInt64.toNat (providerWeight_of_noLimit hw hd))
  | millis ms =>
      rw [toNat_providerWeight_of_millis hw hd]
      exact (nearestUp_le ms).trans (by decide)

/-- A provider has a weight just when its delay is not too long. -/
theorem toNat_providerWeight_pos_iff (hw : l.weight = none) :
    0 < l.providerWeight.toNat ↔ l.minDelay.AtMost .longest := by
  cases hd : l.minDelay with
  | noLimit =>
      rw [providerWeight_of_noLimit hw hd]
      exact ⟨fun _ => .noLimit _, fun _ => by decide⟩
  | millis ms =>
      rw [toNat_providerWeight_of_millis hw hd, Rounding.nearestUp_pos_iff _ (floored_pos ms), Nat.max_le]
      constructor
      · rintro ⟨hms, -⟩
        exact .millis (UInt64.le_iff_toNat_le.2 hms)
      · intro h
        cases h with
        | millis hms => exact ⟨UInt64.le_iff_toNat_le.1 hms, by decide⟩

/-- A longer delay never weighs more. -/
theorem providerWeight_anti (hw : l.weight = none) (hw' : l'.weight = none) (h : l.minDelay.AtMost l'.minDelay) :
    l'.providerWeight ≤ l.providerWeight := by
  rw [UInt64.le_iff_toNat_le]
  cases hd : l.minDelay with
  | noLimit =>
      rw [providerWeight_of_noLimit hw hd]
      exact toNat_providerWeight_le hw'
  | millis ms =>
      cases hd' : l'.minDelay with
      | noLimit =>
          rw [hd, hd'] at h
          cases h
      | millis ms' =>
          rw [hd, hd'] at h
          rw [toNat_providerWeight_of_millis hw hd, toNat_providerWeight_of_millis hw' hd']
          cases h with
          | millis hms =>
              exact Rounding.nearestUp_anti _ (floored_pos ms)
                (max_le_max_right _ (UInt64.le_iff_toNat_le.1 hms))

end Weights

end Limitations

/-! ## Providers with a weight of their delay -/

/-- Providers whose weights follow from their delays, and few enough for the sum of the weights. -/
structure Probed (endpoints : List Endpoint) : Prop where
  ne_nil : endpoints ≠ []
  few : endpoints.length < 2 ^ 40
  weightless : ∀ e ∈ endpoints, e.limitations.weight = none

namespace Sharing

theorem weigh_cons (e : Endpoint) (place : Nat) (placed : List (Endpoint × Nat)) :
    weigh ((e, place) :: placed) = (place, e.limitations.providerWeight) :: weigh placed := rfl

theorem weigh_append (placed more : List (Endpoint × Nat)) :
    weigh (placed ++ more) = weigh placed ++ weigh more := List.map_append

theorem length_weigh (placed : List (Endpoint × Nat)) : (weigh placed).length = placed.length :=
  List.length_map _

/-- Delays give each provider at most the weight that no delay has. -/
theorem sumOf_weigh_le {placed : List (Endpoint × Nat)} (hw : ∀ p ∈ placed, p.1.limitations.weight = none) :
    Branches.sumOf (weigh placed) ≤ 10000 * placed.length := by
  induction placed with
  | nil => exact Nat.zero_le _
  | cons p placed ih =>
      obtain ⟨hp, hw⟩ := List.forall_mem_cons.1 hw
      have hweight := Limitations.toNat_providerWeight_le hp
      have hrest := ih hw
      rw [weigh_cons, Branches.sumOf_cons, List.length_cons]
      omega

variable {endpoints : List Endpoint}

theorem ne_zero_of_weigh {n : Nat} (hw : ∀ e ∈ endpoints, e.limitations.weight = none)
    (hd : ∀ e ∈ endpoints, e.limitations.minDelay.AtMost .longest) :
    ∀ p ∈ weigh (endpoints.zipIdx n), p.2 ≠ 0 := by
  intro p hp hzero
  obtain ⟨⟨e, place⟩, hq, rfl⟩ := List.mem_map.1 hp
  have he := List.fst_mem_of_mem_zipIdx hq
  have hpos := (Limitations.toNat_providerWeight_pos_iff (hw e he)).2 (hd e he)
  exact Nat.ne_of_gt hpos (congrArg UInt64.toNat hzero)

theorem sumOf_weigh_zipIdx_le (hfew : endpoints.length < 2 ^ 40)
    (hw : ∀ e ∈ endpoints, e.limitations.weight = none) (n : Nat) :
    Branches.sumOf (weigh (endpoints.zipIdx n)) ≤ maxWord := by
  have hle := sumOf_weigh_le fun q (hq : q ∈ endpoints.zipIdx n) => hw _ (List.fst_mem_of_mem_zipIdx hq)
  rw [List.length_zipIdx] at hle
  rw [maxWord]
  omega

end Sharing

section Probed

variable {endpoints front rest : List Endpoint} {e : Endpoint}

theorem Probed.usable (h : Probed endpoints) (hd : ∀ e ∈ endpoints, e.limitations.minDelay.AtMost .longest) :
    Branches.Usable (Sharing.weigh endpoints.zipIdx) := by
  refine ⟨?_, Sharing.ne_zero_of_weigh h.weightless hd, Sharing.sumOf_weigh_zipIdx_le h.few h.weightless 0⟩
  rw [Sharing.weigh, ne_eq, List.map_eq_nil_iff, ← List.length_eq_zero_iff, List.length_zipIdx,
    List.length_eq_zero_iff]
  exact h.ne_nil

/-- The first provider with a delay that is too long is the one that is refused. -/
theorem Probed.ofWeights_eq_error (h : Probed (front ++ e :: rest))
    (hfront : ∀ e ∈ front, e.limitations.minDelay.AtMost .longest) (he : ¬ e.limitations.minDelay.AtMost .longest) :
    Branches.ofWeights (Sharing.weigh (front ++ e :: rest).zipIdx) =
      .error (.invalidWeights s!"branch {front.length} has a zero weight") := by
  obtain ⟨hwfront, hwrest⟩ := List.forall_mem_append.1 h.weightless
  have hfew := h.few
  rw [List.length_append] at hfew
  have hpos := Sharing.ne_zero_of_weigh (n := 0) hwfront hfront
  have hfits := Sharing.sumOf_weigh_zipIdx_le (by omega) hwfront 0
  have hzero : e.limitations.providerWeight = 0 := by
    rw [← Limitations.toNat_providerWeight_pos_iff (hwrest e List.mem_cons_self), Nat.pos_iff_ne_zero, not_not] at he
    exact UInt64.toNat_inj.1 he
  rw [List.zipIdx_append, List.zipIdx_cons, Sharing.weigh_append, Sharing.weigh_cons, hzero,
    Branches.ofWeights_of_zero hpos hfits, Sharing.length_weigh, List.length_zipIdx]

end Probed

/-! ## The start of a runner -/

namespace ChainRun

variable {σ : Type}

theorem start_refused {setup : Setup} {e : ConfigError} (h : Sharing.ofEndpoints setup.endpoints = .error e)
    (costs : CallCosts) (timer : Nat) (shared : Shared σ) :
    (Runner.start setup costs timer).run shared = (.error e, shared) := by
  simp only [Runner.start, h]
  exact Shared.within_pure ..

theorem ofEndpoints_refused {endpoints : List Endpoint} {e : ConfigError}
    (h : Branches.ofWeights (Sharing.weigh endpoints.zipIdx) = .error e) :
    Sharing.ofEndpoints endpoints = .error e := by
  rw [Sharing.ofEndpoints_eq, h]
  rfl

/-- A provider without a weight of its own weighs a million over its delay, at least half a second, to the nearest
whole number; a longer delay never weighs more, and a provider weighs at least 1 just when its delay is at most two
million milliseconds. When all the delays are, the weights are accepted and the runner starts. Else both are refused
at the first provider whose delay is too long, and nothing has happened. -/
theorem runner_starts_unless_delay_too_long {setup : Setup} (h : Probed setup.endpoints) (costs : CallCosts)
    (timer : Nat) (shared : Shared σ) :
    (∀ e ∈ setup.endpoints, ∀ ms, e.limitations.minDelay = .millis ms →
      e.limitations.providerWeight.toNat = ⌊(1000000 : ℚ) / (max ms.toNat 500 : Nat) + 1 / 2⌋₊) ∧
    (∀ e ∈ setup.endpoints, ∀ e' ∈ setup.endpoints, e.limitations.minDelay.AtMost e'.limitations.minDelay →
      e'.limitations.providerWeight ≤ e.limitations.providerWeight) ∧
    (∀ e ∈ setup.endpoints, 1 ≤ e.limitations.providerWeight ↔ e.limitations.minDelay.AtMost .longest) ∧
    ((∀ e ∈ setup.endpoints, e.limitations.minDelay.AtMost .longest) →
      (∃ b, Branches.ofWeights (Sharing.weigh setup.endpoints.zipIdx) = .ok b) ∧
      ∃ r shared', (Runner.start setup costs timer).run shared = (.ok r, shared')) ∧
    (∀ front e rest, setup.endpoints = front ++ e :: rest →
      (∀ e ∈ front, e.limitations.minDelay.AtMost .longest) → ¬ e.limitations.minDelay.AtMost .longest →
      Branches.ofWeights (Sharing.weigh setup.endpoints.zipIdx) =
        .error (.invalidWeights s!"branch {front.length} has a zero weight") ∧
      (Runner.start setup costs timer).run shared =
        (.error (.invalidWeights s!"branch {front.length} has a zero weight"), shared)) := by
  refine ⟨?_, ?_, ?_, ?_, ?_⟩
  · intro e he ms hd
    rw [Limitations.toNat_providerWeight_of_millis (h.weightless e he) hd,
      Rounding.nearestUp_eq_floor _ (Limitations.floored_pos ms)]
    rfl
  · intro e he e' he' hd
    exact Limitations.providerWeight_anti (h.weightless e he) (h.weightless e' he') hd
  · intro e he
    rw [← Limitations.toNat_providerWeight_pos_iff (h.weightless e he), UInt64.le_iff_toNat_le]
    rfl
  · intro hd
    obtain ⟨b, hb, -⟩ := (h.usable hd).exists_ofWeights
    obtain ⟨sharing, hsharing, -⟩ := Sharing.exists_ofEndpoints hb
    obtain ⟨r, shared', hstart, -⟩ := start_run hsharing costs timer shared
    exact ⟨⟨b, hb⟩, r, shared', hstart⟩
  · intro front e rest heq hfront he
    rw [heq] at h
    have hrefused := h.ofWeights_eq_error hfront he
    rw [← heq] at hrefused
    exact ⟨hrefused, start_refused (ofEndpoints_refused hrefused) costs timer shared⟩

/-- A provider without a limit before one with a delay. -/
def delayedProvider (ms : UInt64) : Setup where
  chain := ⟨"chain", 12000, 0⟩
  endpoints :=
    [⟨⟨"http".toList, [], some "quick".toList, none, .segments [], none, none⟩, { minDelay := .noLimit }⟩,
      ⟨⟨"http".toList, [], some "slow".toList, none, .segments [], none, none⟩, { minDelay := .millis ms }⟩]
  behaviour := { mode := .historical }
  shaping := {}
  stream := {}
  retry := {}
  lock := {}

theorem probed_delayedProvider (ms : UInt64) : Probed (delayedProvider ms).endpoints where
  ne_nil := List.cons_ne_nil _ _
  few := by
    change 2 < 2 ^ 40
    decide
  weightless := List.forall_mem_cons.2 ⟨rfl, List.forall_mem_singleton.2 rfl⟩

/-- A runner starts beside a provider with the longest delay that has a weight. -/
theorem runner_starts_unless_delay_too_long_longest : Probed (delayedProvider 2000000).endpoints ∧
    ∃ r shared',
      (Runner.start (delayedProvider 2000000) [] 0).run { gate := ⟨({} : Locks), 0⟩ } = (.ok r, shared') := by
  have hprobed := probed_delayedProvider 2000000
  refine ⟨hprobed, ?_⟩
  obtain ⟨-, -, -, hstarts, -⟩ := runner_starts_unless_delay_too_long hprobed [] 0 { gate := ⟨({} : Locks), 0⟩ }
  refine (hstarts ?_).2
  exact List.forall_mem_cons.2 ⟨.noLimit _, List.forall_mem_singleton.2 (.millis (by decide))⟩

/-- One more millisecond weighs nothing, and no runner starts. -/
theorem longer_delay_weighs_nothing : Probed (delayedProvider 2000001).endpoints ∧
    (∃ e ∈ (delayedProvider 2000001).endpoints, e.limitations.providerWeight = 0) ∧
    Branches.ofWeights (Sharing.weigh (delayedProvider 2000001).endpoints.zipIdx) =
      .error (.invalidWeights "branch 1 has a zero weight") ∧
    (Runner.start (delayedProvider 2000001) [] 0).run { gate := ⟨({} : Locks), 0⟩ } =
      (.error (.invalidWeights "branch 1 has a zero weight"), { gate := ⟨{}, 0⟩ }) := by
  have hrefused : Branches.ofWeights (Sharing.weigh (delayedProvider 2000001).endpoints.zipIdx) =
      .error (.invalidWeights "branch 1 has a zero weight") := rfl
  refine ⟨probed_delayedProvider 2000001, ⟨_, List.mem_cons_of_mem _ List.mem_cons_self, rfl⟩, hrefused, ?_⟩
  exact start_refused (ofEndpoints_refused hrefused) [] 0 _

end ChainRun

end Backfill
