import Backfill.PacedCall
import Backfill.Proofs.Lock.Exclusive
import Mathlib.Data.Nat.Find

/-!
# Waiting for a lock

Whoever asks for a lock in vain leaves no trace, so that each attempt meets the locks as the others have left them.
The first attempt at which nobody else holds the lock takes it. If there is none, the first one at the end of the
time or after it gives up; those before it are always followed by another one. A call to a provider asks for the
provider's lock attempt by attempt, and comes to the same end.
-/

namespace Backfill

/-! ## One attempt -/

namespace LockService

variable {σ : Type} [LockService σ] {s : Surroundings σ} {key owner : String}
  {timeoutMs expirySeconds number : Nat} {locks : σ}

theorem acquireFrom_eq :
    acquireFrom s key owner timeoutMs expirySeconds number locks =
      let waitedMs := number * lockPollMs
      let answer := acquire (s.date waitedMs) key owner expirySeconds locks
      match Attempt.ofClaim key timeoutMs waitedMs timeoutMs answer.1 with
      | .acquired => ⟨.ok (), waitedMs, answer.2⟩
      | .failed cause => ⟨.error cause, waitedMs, answer.2⟩
      | .again => acquireFrom s key owner timeoutMs expirySeconds (number + 1) (s.others number answer.2) := by
  rw [acquireFrom]
  split <;> rename_i h <;> simp only [h]

end LockService

namespace Locks

variable {l : Locks} {now : Timestamp} {key owner : String} {s : Surroundings Locks}
  {timeoutMs expirySeconds number : Nat}

/-- Somebody else holds a lock that has not expired. -/
def HeldByOther (l : Locks) (now : Timestamp) (key owner : String) : Prop :=
  ∃ other, l.owner? now key = some other ∧ other ≠ owner

theorem acquire_of_heldByOther (h : l.HeldByOther now key owner) (expirySeconds : Nat) :
    ∃ other, l.acquire now key owner expirySeconds = (.heldBy other, l) := by
  obtain ⟨other, howner, hother⟩ := h
  obtain ⟨lease, hcurrent, rfl⟩ := Option.map_eq_some_iff.1 howner
  exact ⟨lease.owner, acquire_of_current?_eq_some hcurrent hother⟩

theorem acquire_of_not_heldByOther (h : ¬ l.HeldByOther now key owner) :
    l.acquire now key owner expirySeconds = (.acquired, l.take now key owner expirySeconds) := by
  cases hcurrent : l.current? now key with
  | none => simp [acquire, hcurrent]
  | some lease =>
    have hown : lease.owner = owner := by
      apply Decidable.byContradiction
      exact fun hother => h ⟨lease.owner, by simp [owner?, hcurrent], hother⟩
    simp [acquire, hcurrent, hown]

theorem acquireFrom_of_free (h : ¬ l.HeldByOther (s.date (number * lockPollMs)) key owner) :
    LockService.acquireFrom s key owner timeoutMs expirySeconds number l =
      ⟨.ok (), number * lockPollMs, l.take (s.date (number * lockPollMs)) key owner expirySeconds⟩ := by
  rw [LockService.acquireFrom_eq]
  simp [LockService.acquire, acquire_of_not_heldByOther h, Attempt.ofClaim]

theorem acquireFrom_of_early (h : l.HeldByOther (s.date (number * lockPollMs)) key owner)
    (hearly : number * lockPollMs < timeoutMs) :
    LockService.acquireFrom s key owner timeoutMs expirySeconds number l =
      LockService.acquireFrom s key owner timeoutMs expirySeconds (number + 1) (s.others number l) := by
  obtain ⟨other, hheld⟩ := acquire_of_heldByOther h expirySeconds
  rw [LockService.acquireFrom_eq]
  simp [LockService.acquire, hheld, Attempt.ofClaim, hearly]

theorem acquireFrom_of_late (h : l.HeldByOther (s.date (number * lockPollMs)) key owner)
    (hlate : timeoutMs ≤ number * lockPollMs) :
    LockService.acquireFrom s key owner timeoutMs expirySeconds number l =
      ⟨.error (.timeout key timeoutMs), number * lockPollMs, l⟩ := by
  obtain ⟨other, hheld⟩ := acquire_of_heldByOther h expirySeconds
  rw [LockService.acquireFrom_eq]
  simp [LockService.acquire, hheld, Attempt.ofClaim, Nat.not_lt.2 hlate]

end Locks

/-! ## All attempts -/

/-- The locks as the others have left them when the attempt with this number comes. -/
def Surroundings.left {σ : Type} (s : Surroundings σ) (locks : σ) : Nat → σ
  | 0 => locks
  | number + 1 => s.others number (s.left locks number)

/-- Others use the locks on a schedule, which has the uses between each attempt and the next one. -/
def Surroundings.scheduled (date : Nat → Timestamp) (schedule : Nat → List LockCall) : Surroundings Locks :=
  ⟨date, fun number l => l.run (schedule number)⟩

theorem Surroundings.left_scheduled (date : Nat → Timestamp) (schedule : Nat → List LockCall) (l : Locks)
    (number : Nat) : (scheduled date schedule).left l number = l.run ((List.range number).flatMap schedule) := by
  induction number with
  | zero => rfl
  | succ number ih =>
    rw [left, ih, List.range_succ, List.flatMap_append, List.flatMap_singleton]
    exact (List.foldl_append ..).symm

/-- The number of the first attempt at the end of the time or after it. -/
def lastAttempt (timeoutMs : Nat) : Nat := (timeoutMs + lockPollMs - 1) / lockPollMs

theorem le_lastAttempt (timeoutMs : Nat) : timeoutMs ≤ lastAttempt timeoutMs * lockPollMs := by
  simp only [lastAttempt, lockPollMs]
  omega

theorem lastAttempt_lt (timeoutMs : Nat) : lastAttempt timeoutMs * lockPollMs < timeoutMs + lockPollMs := by
  simp only [lastAttempt, lockPollMs]
  omega

theorem lt_of_lt_lastAttempt {timeoutMs number : Nat} (h : number < lastAttempt timeoutMs) :
    number * lockPollMs < timeoutMs := by
  simp only [lastAttempt, lockPollMs] at h ⊢
  omega

namespace Locks

variable {l : Locks} {key owner : String} {s : Surroundings Locks} {timeoutMs number : Nat}

/-- The attempt with this number meets a lock of somebody else. -/
def Busy (s : Surroundings Locks) (l : Locks) (key owner : String) (number : Nat) : Prop :=
  (s.left l number).HeldByOther (s.date (number * lockPollMs)) key owner

/-- As long as all attempts were in vain and in time, there is another one. -/
theorem acquireWithin_eq_acquireFrom (expirySeconds : Nat) (hnumber : number ≤ lastAttempt timeoutMs)
    (hbusy : ∀ m < number, Busy s l key owner m) :
    LockService.acquireWithin s key owner timeoutMs expirySeconds l =
      LockService.acquireFrom s key owner timeoutMs expirySeconds number (s.left l number) := by
  induction number with
  | zero => rfl
  | succ number ih =>
    rw [ih (Nat.le_of_succ_le hnumber) fun m hm => hbusy m (Nat.lt_succ_of_lt hm),
      acquireFrom_of_early (hbusy number (Nat.lt_succ_self _)) (lt_of_lt_lastAttempt hnumber), Surroundings.left]

theorem acquireWithin_of_free (expirySeconds : Nat) (hnumber : number ≤ lastAttempt timeoutMs)
    (hbusy : ∀ m < number, Busy s l key owner m) (hfree : ¬ Busy s l key owner number) :
    LockService.acquireWithin s key owner timeoutMs expirySeconds l = ⟨.ok (), number * lockPollMs,
      (s.left l number).take (s.date (number * lockPollMs)) key owner expirySeconds⟩ := by
  rw [acquireWithin_eq_acquireFrom expirySeconds hnumber hbusy, acquireFrom_of_free hfree]

theorem acquireWithin_of_busy (expirySeconds : Nat) (hbusy : ∀ m ≤ lastAttempt timeoutMs, Busy s l key owner m) :
    LockService.acquireWithin s key owner timeoutMs expirySeconds l =
      ⟨.error (.timeout key timeoutMs), lastAttempt timeoutMs * lockPollMs, s.left l (lastAttempt timeoutMs)⟩ := by
  rw [acquireWithin_eq_acquireFrom expirySeconds (Nat.le_refl _) fun m hm => hbusy m (Nat.le_of_lt hm),
    acquireFrom_of_late (hbusy _ (Nat.le_refl _)) (le_lastAttempt timeoutMs)]

theorem exists_first_free {last : Nat} (h : ¬ ∀ n ≤ last, Busy s l key owner n) :
    ∃ n ≤ last, (∀ m < n, Busy s l key owner m) ∧ ¬ Busy s l key owner n := by
  classical
  simp only [not_forall] at h
  obtain ⟨n, hn, hfree⟩ := h
  have hsome : ∃ n, ¬ Busy s l key owner n := ⟨n, hfree⟩
  refine ⟨Nat.find hsome, Nat.le_trans (Nat.find_min' hsome hfree) hn, fun m hm => ?_, Nat.find_spec hsome⟩
  exact not_not.1 (Nat.find_min hsome hm)

/-- Waiting for a lock is exact, whatever the others do between the attempts and whatever the date is at each of them;
on one clock it is `start.after (ofMillis waitedMs)`. The first attempt at which nobody else holds the lock takes it,
and the last one is the first at the end of the time or after it. When that one is in vain as well, the locks are as
the others have left them. -/
theorem lock_wait_exact (l : Locks) (date : Nat → Timestamp) (schedule : Nat → List LockCall) (key owner : String)
    (timeoutMs expirySeconds : Nat) :
    let left n := l.run ((List.range n).flatMap schedule)
    let busy n := (left n).HeldByOther (date (n * 50)) key owner
    let waited := LockService.acquireWithin (.scheduled date schedule) key owner timeoutMs expirySeconds l
    ∃ last, timeoutMs ≤ last * 50 ∧ last * 50 < timeoutMs + 50 ∧
      ((∃ n ≤ last, (∀ m < n, busy m) ∧ ¬ busy n ∧
          waited = ⟨.ok (), n * 50, (left n).take (date (n * 50)) key owner expirySeconds⟩) ∨
        (∀ n ≤ last, busy n) ∧ waited = ⟨.error (.timeout key timeoutMs), last * 50, left last⟩) := by
  intro left busy waited
  have hleft : ∀ n, (Surroundings.scheduled date schedule).left l n = left n :=
    Surroundings.left_scheduled date schedule l
  have hbusy : ∀ n, Busy (.scheduled date schedule) l key owner n ↔ busy n := by
    intro n
    rw [Busy, hleft]
    rfl
  refine ⟨lastAttempt timeoutMs, le_lastAttempt timeoutMs, lastAttempt_lt timeoutMs, ?_⟩
  by_cases hall : ∀ n ≤ lastAttempt timeoutMs, Busy (.scheduled date schedule) l key owner n
  · refine Or.inr ⟨fun n hn => (hbusy n).1 (hall n hn), ?_⟩
    rw [← hleft]
    exact acquireWithin_of_busy expirySeconds hall
  · obtain ⟨n, hn, hearlier, hfree⟩ := exists_first_free hall
    refine Or.inl ⟨n, hn, fun m hm => (hbusy m).1 (hearlier m hm), fun h => hfree ((hbusy n).2 h), ?_⟩
    rw [← hleft]
    exact acquireWithin_of_free expirySeconds hn hearlier hfree

-- A lock of a minute on one clock: nobody frees it, or its owner does so after 70 ms.
example :
    let clock ms := Timestamp.epoch.after (ofMillis ms)
    let taken : Locks := (({} : Locks).acquire (clock 0) "rpc:a" "one" 60).2
    let freed n : List LockCall := if n = 1 then [⟨clock 70, "rpc:a", .release "one"⟩] else []
    (LockService.acquireWithin (.scheduled clock fun _ => []) "rpc:a" "two" 180 60 taken).waitedMs = 200 ∧
      (LockService.acquireWithin (.scheduled clock freed) "rpc:a" "two" 180 60 taken).waitedMs = 100 := by
  decide +kernel

end Locks

/-! ## Paced calls -/

namespace PacedCall

variable {β σ : Type} [LockService σ]

/-- Reading the time on a timer that began at any reading makes no difference. -/
theorem ofClaim_ofMillis (key : String) (timeoutMs began waitedMs : Nat) (claim : Except LockError Claim) :
    Attempt.ofClaim key timeoutMs (began + ofMillis waitedMs) (began + ofMillis timeoutMs) claim =
      Attempt.ofClaim key timeoutMs waitedMs timeoutMs claim := by
  have htime : began + ofMillis waitedMs < began + ofMillis timeoutMs ↔ waitedMs < timeoutMs := by
    simp only [ofMillis]
    omega
  unfold Attempt.ofClaim
  split
  · rfl
  · by_cases hearly : waitedMs < timeoutMs
    · rw [if_pos (htime.2 hearly), if_pos hearly]
    · rw [if_neg fun h => hearly (htime.1 h), if_neg hearly]
  · rfl

theorem ofMillis_add (a b : Nat) : ofMillis (a + b) = ofMillis a + ofMillis b := Nat.add_mul ..

/-- The clock at the attempt with this number, when the first one is made at this reading of the timer. -/
def attemptClock (s : Surroundings σ) (began number : Nat) : Clock :=
  ⟨s.date (number * lockPollMs), began + ofMillis (number * lockPollMs)⟩

/-- A call that asks for the lock of its provider makes the attempt of a caller that waits, and is due again at the
next one. -/
theorem step_asking (t : CallTerms) (s : Surroundings σ) (c : PacedCall β) (gate : Gate σ) {owner : String}
    {began : Nat} (hstage : c.stage = .asking owner (began + ofMillis t.lock.timeoutMs)) (number : Nat) :
    let answer := LockService.acquire (s.date (number * lockPollMs)) t.lockName owner t.lock.expirySeconds gate.locks
    let next := c.step t (attemptClock s began number) gate
    next.2.1 = { gate with locks := answer.2 } ∧
      next.1 =
        match Attempt.ofClaim t.lockName t.lock.timeoutMs (number * lockPollMs) t.lock.timeoutMs answer.1 with
        | .acquired => { c with stage := .holding owner }
        | .again => { c with wake := began + ofMillis ((number + 1) * lockPollMs) }
        | .failed cause => (settle t (began + ofMillis (number * lockPollMs)) c (.error (.lock cause))).1 := by
  obtain ⟨stage, failed, wake⟩ := c
  subst hstage
  simp only [step, asked, attemptClock, ofClaim_ofMillis, true_and]
  generalize Attempt.ofClaim t.lockName t.lock.timeoutMs (number * lockPollMs) t.lock.timeoutMs
    (LockService.acquire (s.date (number * lockPollMs)) t.lockName owner t.lock.expirySeconds gate.locks).1 = attempt
  cases attempt with
  | acquired => rfl
  | again => rw [Nat.succ_mul, ofMillis_add, Nat.add_assoc]
  | failed cause => rfl

/-- The step at the last of so many further attempts, after the one with this number, when each comes on time. -/
def stepAfter (t : CallTerms) (s : Surroundings σ) (began : Nat) :
    Nat → Nat → PacedCall β → Gate σ → PacedCall β × Gate σ × List Log.Entry
  | 0, number, c, gate => c.step t (attemptClock s began number) gate
  | further + 1, number, c, gate =>
    let next := c.step t (attemptClock s began number) gate
    stepAfter t s began further (number + 1) next.1 { next.2.1 with locks := s.others number next.2.1.locks }

/-- The lock of a provider is asked for as any other lock: the call gets it, or its attempt fails, just when a caller
that waits does, and they leave the same locks. -/
theorem asking_exact (t : CallTerms) (s : Surroundings σ) (c : PacedCall β) {owner : String} {began : Nat}
    (hstage : c.stage = .asking owner (began + ofMillis t.lock.timeoutMs)) (number owners : Nat) (locks : σ) :
    let wait := LockService.acquireFrom s t.lockName owner t.lock.timeoutMs t.lock.expirySeconds number locks
    ∃ further wake, wait.waitedMs = (number + further) * lockPollMs ∧
      let last := stepAfter t s began further number c ⟨locks, owners⟩
      last.2.1 = ⟨wait.locks, owners⟩ ∧
        last.1 =
          match wait.result with
          | .ok () => { c with stage := .holding owner, wake }
          | .error cause => (settle t (began + ofMillis wait.waitedMs) { c with wake } (.error (.lock cause))).1 := by
  -- along the attempts of the caller that waits: the call makes each of them in one step
  induction number, locks using LockService.acquireFrom.induct s t.lockName owner t.lock.timeoutMs t.lock.expirySeconds
    generalizing c with
  | case1 number locks waitedMs answer hattempt =>
    obtain ⟨hgate, hcall⟩ := step_asking t s c ⟨locks, owners⟩ hstage number
    simp only [waitedMs, answer] at hattempt
    rw [LockService.acquireFrom_eq]
    simp only [hattempt] at hcall ⊢
    exact ⟨0, c.wake, rfl, hgate, hcall⟩
  | case2 number locks waitedMs answer cause hattempt =>
    obtain ⟨hgate, hcall⟩ := step_asking t s c ⟨locks, owners⟩ hstage number
    simp only [waitedMs, answer] at hattempt
    rw [LockService.acquireFrom_eq]
    simp only [hattempt] at hcall ⊢
    exact ⟨0, c.wake, rfl, hgate, hcall⟩
  | case3 number locks waitedMs answer hattempt ih =>
    obtain ⟨hgate, hcall⟩ := step_asking t s c ⟨locks, owners⟩ hstage number
    simp only [waitedMs, answer] at hattempt ih
    rw [LockService.acquireFrom_eq]
    simp only [hattempt] at hcall ⊢
    obtain ⟨further, wake, htime, hlast⟩ := ih { c with wake := began + ofMillis ((number + 1) * lockPollMs) } hstage
    refine ⟨further + 1, wake, by rw [htime, Nat.add_right_comm, Nat.add_assoc], ?_⟩
    rw [stepAfter, hgate, hcall]
    exact hlast

end PacedCall

end Backfill
