import Backfill.Proofs.PacedCall.Attempts

/-!
# The attempts of a call

An attempt that succeeds or fails for good is the last one, and the call returns what it came to. After any other
one the next attempt begins, until all attempts are used up and the call returns the text of the last error. This
takes a bounded number of moves, whatever the locks and the provider answer.
-/

namespace Backfill

namespace PacedCall

variable {β σ : Type} {t : CallTerms} {c : PacedCall β} {begun timer : Nat} {ended : List (Except RpcError β)}
  {clock : Clock}

/-- What the present attempt comes to, if the next step ends it. -/
def verdict? [LockService σ] (t : CallTerms) (clock : Clock) (c : PacedCall β) (gate : Gate σ) :
    Option (Except RpcError β) :=
  match c.stage with
  | .asking owner deadline =>
    match Attempt.ofClaim t.lockName t.lock.timeoutMs clock.timer deadline
      (LockService.acquire clock.date t.lockName owner t.lock.expirySeconds gate.locks).1 with
    | .failed cause => some (.error (.lock cause))
    | _ => none
  | .leaving _ result => some result
  | _ => none

/-- What the present attempt comes to, if this answer ends it. -/
def heard? (answer : Except RpcError β) (c : PacedCall β) : Option (Except RpcError β) :=
  match c.stage with
  | .calling none => some answer
  | _ => none

/-- What a call returns after so many attempts. -/
inductive Returns (t : CallTerms) (made : Nat) (last : Except RpcError β) : Except RpcError β → Prop where
  | final (h : ¬ Retries last) : Returns t made last last
  | exhausted {e : RpcError} (hlast : last = .error e) (hretryable : e.retryable = true)
      (hmade : made = t.retry.maxAttempts) :
      Returns t made last (.error (.retriesExhausted t.retry.maxAttempts e.message))

/-- Where a call stands after the attempts that have ended. -/
inductive Status (t : CallTerms) (begun : Nat) (ended : List (Except RpcError β)) (c : PacedCall β) : Prop where
  | going (hresult : c.result? = none) (hbegun : begun + c.opens = c.failed + 1) (hended : ended.length = c.failed)
      (hretries : ∀ r ∈ ended, Retries r) (hroom : c.failed < t.retry.maxAttempts)
  | done {earlier : List (Except RpcError β)} {last result : Except RpcError β} (hresult : c.result? = some result)
      (hended : ended = earlier ++ [last]) (hbegun : begun = earlier.length + 1)
      (hretries : ∀ r ∈ earlier, Retries r) (hroom : earlier.length < t.retry.maxAttempts)
      (hreturns : Returns t begun last result)

/-- Only the present attempt is missing from the record, and it is not one too many. -/
theorem Status.going_of_result? (h : Status t begun ended c) (hopen : c.result? = none) :
    begun + c.opens = c.failed + 1 ∧ ended.length = c.failed ∧ (∀ r ∈ ended, Retries r) ∧
      c.failed < t.retry.maxAttempts := by
  cases h with
  | going hresult hbegun hended hretries hroom => exact ⟨hbegun, hended, hretries, hroom⟩
  | done hresult => simp [hopen] at hresult

theorem status_settle {result : Except RpcError β} (hended : ended.length = c.failed)
    (hretries : ∀ r ∈ ended, Retries r) (hroom : c.failed < t.retry.maxAttempts) :
    Status t (c.failed + 1) (ended ++ [result]) (settle t timer c result).1 := by
  have hsettled := settled t timer c result
  generalize (settle t timer c result).1 = next at hsettled
  have hdone : ∀ {returned : Except RpcError β}, next.result? = some returned →
      Returns t (c.failed + 1) result returned → Status t (c.failed + 1) (ended ++ [result]) next := by
    intro returned hresult hreturns
    exact .done hresult rfl (by rw [hended]) hretries (by rwa [hended]) hreturns
  cases hsettled with
  | final hfinal => exact hdone rfl (.final hfinal)
  | @again e he hmore =>
    refine .going rfl rfl (by simp [hended]) ?_ hmore
    exact List.forall_mem_append.2 ⟨hretries, List.forall_mem_singleton.2 ⟨e, rfl, he⟩⟩
  | exhausted he hlast => exact hdone rfl (.exhausted rfl he (by omega))

theorem Status.step [LockService σ] (h : Status t begun ended c) (clock : Clock) (gate : Gate σ) :
    Status t (begun + c.opens) (ended ++ (c.verdict? t clock gate).toList) (c.step t clock gate).1 := by
  obtain ⟨stage, failed, wake⟩ := c
  cases stage with
  | finished result =>
    simp only [verdict?, Option.toList_none, List.append_nil]
    exact h
  | resting =>
    obtain ⟨hbegun, hended, hretries, hroom⟩ := h.going_of_result? rfl
    simp only [verdict?, Option.toList_none, List.append_nil, PacedCall.step]
    split <;> exact .going rfl hbegun hended hretries hroom
  | asking owner deadline =>
    obtain ⟨rfl, hended, hretries, hroom⟩ := h.going_of_result? rfl
    simp only [verdict?, PacedCall.step, asked]
    generalize Attempt.ofClaim t.lockName t.lock.timeoutMs clock.timer deadline
      (LockService.acquire clock.date t.lockName owner t.lock.expirySeconds gate.locks).1 = attempt
    cases attempt with
    | acquired =>
      simp only [Option.toList_none, List.append_nil]
      exact .going rfl rfl hended hretries hroom
    | again =>
      simp only [Option.toList_none, List.append_nil]
      exact .going rfl rfl hended hretries hroom
    | failed cause => exact status_settle hended hretries hroom
  | holding owner =>
    obtain ⟨hbegun, hended, hretries, hroom⟩ := h.going_of_result? rfl
    simp only [verdict?, Option.toList_none, List.append_nil, PacedCall.step, spaced]
    split <;> exact .going rfl hbegun hended hretries hroom
  | spacing owner =>
    obtain ⟨hbegun, hended, hretries, hroom⟩ := h.going_of_result? rfl
    simp only [verdict?, Option.toList_none, List.append_nil, PacedCall.step]
    cases (LockService.record t.lockName clock.date gate.locks).1 with
    | ok _ => exact .going rfl hbegun hended hretries hroom
    | error e => exact .going rfl hbegun hended hretries hroom
  | calling owner =>
    simp only [verdict?, Option.toList_none, List.append_nil]
    exact h
  | closing owner answer =>
    obtain ⟨hbegun, hended, hretries, hroom⟩ := h.going_of_result? rfl
    simp only [verdict?, Option.toList_none, List.append_nil]
    exact .going rfl hbegun hended hretries hroom
  | leaving owner result =>
    obtain ⟨rfl, hended, hretries, hroom⟩ := h.going_of_result? rfl
    exact status_settle hended hretries hroom

theorem Status.answered (h : Status t begun ended c) (timer : Nat) (answer : Except RpcError β) :
    Status t begun (ended ++ (c.heard? answer).toList) (c.answered t timer answer).1 := by
  obtain ⟨stage, failed, wake⟩ := c
  cases stage with
  | calling owner =>
    obtain ⟨rfl, hended, hretries, hroom⟩ := h.going_of_result? rfl
    cases owner with
    | none => exact status_settle hended hretries hroom
    | some owner =>
      simp only [heard?, Option.toList_none, List.append_nil]
      exact .going rfl rfl hended hretries hroom
  | _ =>
    simp only [heard?, Option.toList_none, List.append_nil]
    exact h

/-! ## How long it can take -/

/-- How often a caller asks for a lock at most until so much time has passed. -/
def polls (duration : Nat) : Nat := (duration + ofMillis lockPollMs - 1) / ofMillis lockPollMs + 1

/-- The moves of one attempt at most. -/
def attemptMoves (t : CallTerms) : Nat := t.lock.timeoutMs / lockPollMs + 8

/-- The moves of all attempts at most that follow the present one. -/
def later (t : CallTerms) (c : PacedCall β) : Nat := (t.retry.maxAttempts - (c.failed + 1)) * attemptMoves t

/-- The moves at most that are left when the timer has come to a reading. -/
def left (t : CallTerms) (timer : Nat) (c : PacedCall β) : Nat :=
  match c.stage with
  | .resting => later t c + attemptMoves t
  | .asking _ deadline => later t c + polls (deadline - max timer c.wake) + 5
  | .holding _ => later t c + 5
  | .spacing _ => later t c + 4
  | .calling (some _) => later t c + 3
  | .closing _ _ => later t c + 2
  | .leaving _ _ => later t c + 1
  | .calling none => later t c + 1
  | .finished _ => 0

theorem left_settle (t : CallTerms) (timer now : Nat) (c : PacedCall β) (result : Except RpcError β) :
    (settle t timer c result).1.left t now ≤ later t c := by
  have hsettled := settled t timer c result
  generalize (settle t timer c result).1 = next at hsettled
  cases hsettled with
  | final => exact Nat.zero_le _
  | again he hmore =>
    have hone : t.retry.maxAttempts - (c.failed + 1) = t.retry.maxAttempts - (c.failed + 1 + 1) + 1 := by omega
    simp only [left, later, hone, Nat.add_mul, Nat.one_mul, Nat.le_refl]
  | exhausted => exact Nat.zero_le _

theorem polls_timeout (t : CallTerms) : polls (ofMillis t.lock.timeoutMs) + 6 ≤ attemptMoves t := by
  simp only [polls, attemptMoves, ofMillis, lockPollMs]
  omega

theorem polls_lt {deadline before now : Nat} (hbefore : before ≤ now) (hnow : now < deadline) :
    polls (deadline - (now + ofMillis lockPollMs)) < polls (deadline - before) := by
  simp only [polls, ofMillis, lockPollMs]
  omega

theorem left_step [LockService σ] {now : Nat} (hnow : now ≤ clock.timer) (hdue : c.isDue clock.timer = true)
    (gate : Gate σ) : (c.step t clock gate).1.left t clock.timer < c.left t now := by
  obtain ⟨stage, failed, wake⟩ := c
  cases stage with
  | resting =>
    have hwake : wake ≤ clock.timer := by simpa [isDue, wake?] using hdue
    have hpolls := polls_timeout t
    simp only [PacedCall.step]
    split
    · simp only [left, later]
      omega
    · have hwait : clock.timer + ofMillis t.lock.timeoutMs - max clock.timer wake = ofMillis t.lock.timeoutMs := by
        omega
      simp only [left, later, hwait]
      omega
  | asking owner deadline =>
    have hwake : wake ≤ clock.timer := by simpa [isDue, wake?] using hdue
    simp only [PacedCall.step, asked]
    generalize hattempt : Attempt.ofClaim t.lockName t.lock.timeoutMs clock.timer deadline
      (LockService.acquire clock.date t.lockName owner t.lock.expirySeconds gate.locks).1 = attempt
    cases attempt with
    | acquired =>
      have hpolls : 0 < polls (deadline - max now wake) := Nat.succ_pos _
      simp only [left, later]
      omega
    | again =>
      -- the next poll is due later, so fewer of them fit in before the deadline
      have hpolls := polls_lt (Nat.max_le.2 ⟨hnow, hwake⟩) (Attempt.lt_of_ofClaim_eq_again hattempt)
      have hnext : max clock.timer (clock.timer + ofMillis lockPollMs) = clock.timer + ofMillis lockPollMs :=
        Nat.max_eq_right (Nat.le_add_right ..)
      simp only [left, later, hnext]
      omega
    | failed cause =>
      refine Nat.lt_of_le_of_lt (left_settle ..) ?_
      simp only [left, later]
      omega
  | holding owner =>
    simp only [PacedCall.step, spaced]
    split
    · simp only [left, later]
      omega
    · simp only [left, later]
      omega
  | spacing owner =>
    simp only [PacedCall.step]
    cases (LockService.record t.lockName clock.date gate.locks).1 with
    | ok _ =>
      simp only [left, later]
      omega
    | error e =>
      simp only [left, later]
      omega
  | closing owner answer =>
    simp only [PacedCall.step, left, later]
    omega
  | leaving owner result =>
    exact Nat.lt_succ_of_le (left_settle t clock.timer clock.timer ⟨.leaving owner result, failed, wake⟩ result)
  | calling owner => simp [isDue, wake?] at hdue
  | finished result => simp [isDue, wake?] at hdue

theorem left_answered (hcalling : c.isCalling = true) (timer now : Nat) (answer : Except RpcError β) :
    (c.answered t timer answer).1.left t timer < c.left t now := by
  obtain ⟨stage, failed, wake⟩ := c
  cases stage with
  | calling owner =>
    cases owner with
    | none => exact Nat.lt_succ_of_le (left_settle t timer timer ⟨.calling none, failed, wake⟩ answer)
    | some owner => exact Nat.lt_succ_self _
  | _ => cases hcalling

end PacedCall

/-! ## Executions -/

/-- A call on its way, and a record that nothing reads: the last reading of the timer, the moves and the attempts so
far, and what the attempts came to, the oldest first. -/
structure Execution (β : Type) where
  call : PacedCall β
  timer : Nat
  moves : Nat := 0
  begun : Nat := 0
  ended : List (Except RpcError β) := []

namespace Execution

/-- The locks may be in any state at each step, and the provider may answer anything. -/
inductive Move (σ β : Type) where
  | step (clock : Clock) (gate : Gate σ)
  | answer (timer : Nat) (answer : Except RpcError β)

variable {β σ : Type} [LockService σ] {t : CallTerms} {s : Execution β}

def start (wake : Nat) : Execution β := { call := { wake }, timer := wake }

/-- The call makes a step when it is due, and it is told an answer when it waits for one. -/
def move (t : CallTerms) (s : Execution β) : Move σ β → Execution β
  | .step clock gate =>
    if s.timer ≤ clock.timer ∧ s.call.isDue clock.timer = true then
      { call := (s.call.step t clock gate).1
        timer := clock.timer
        moves := s.moves + 1
        begun := s.begun + s.call.opens
        ended := s.ended ++ (s.call.verdict? t clock gate).toList }
    else s
  | .answer timer answer =>
    if s.timer ≤ timer ∧ s.call.isCalling = true then
      { s with
        call := (s.call.answered t timer answer).1
        timer
        moves := s.moves + 1
        ended := s.ended ++ (s.call.heard? answer).toList }
    else s

def run (t : CallTerms) (s : Execution β) (moves : List (Move σ β)) : Execution β := moves.foldl (move t) s

/-- The record is right, and the moves so far leave room for those that the call may still need. -/
structure Sound (t : CallTerms) (s : Execution β) : Prop where
  status : s.call.Status t s.begun s.ended
  bounded : s.moves + s.call.left t s.timer ≤ t.retry.maxAttempts * PacedCall.attemptMoves t

theorem sound_start (t : CallTerms) (wake : Nat) : (start wake : Execution β).Sound t where
  status := .going rfl rfl rfl (List.forall_mem_nil _) (Nat.lt_of_lt_of_le Nat.one_pos (Nat.le_max_right ..))
  bounded := by
    have hone : t.retry.maxAttempts = t.retry.maxAttempts - 1 + 1 := by
      have hpos : 1 ≤ t.retry.maxAttempts := Nat.le_max_right ..
      omega
    rw [hone, Nat.add_mul]
    simp [start, PacedCall.left, PacedCall.later]

theorem Sound.move (h : s.Sound t) (m : Move σ β) : (s.move t m).Sound t := by
  cases m with
  | step clock gate =>
    rw [Execution.move]
    split
    · rename_i hmoves
      have hleft := PacedCall.left_step (t := t) hmoves.1 hmoves.2 gate
      have hbounded := h.bounded
      refine ⟨h.status.step clock gate, ?_⟩
      simp only
      omega
    · exact h
  | answer timer answer =>
    rw [Execution.move]
    split
    · rename_i hmoves
      have hleft := PacedCall.left_answered (t := t) hmoves.2 timer s.timer answer
      have hbounded := h.bounded
      refine ⟨h.status.answered timer answer, ?_⟩
      simp only
      omega
    · exact h

theorem sound_run (h : s.Sound t) (moves : List (Move σ β)) : (s.run t moves).Sound t := by
  induction moves generalizing s with
  | nil => exact h
  | cons m moves ih => exact ih (h.move m)

/-- An attempt follows each one that another attempt may mend, up to the last one allowed, and no other. -/
structure Lawful (t : CallTerms) (s : Execution β) : Prop where
  mended : ∀ r ∈ s.ended.dropLast, PacedCall.Retries r
  going_iff : s.call.result? = none ↔ s.ended.length < t.retry.maxAttempts ∧ ∀ r ∈ s.ended, PacedCall.Retries r
  begun : s.begun = s.ended.length ∨ s.call.result? = none ∧ s.begun = s.ended.length + 1
  returned : ∀ result, s.call.result? = some result → s.begun = s.ended.length ∧
    s.ended.length ≤ t.retry.maxAttempts ∧
    ∃ last, s.ended.getLast? = some last ∧ PacedCall.Returns t s.ended.length last result

theorem lawful_of_status (h : s.call.Status t s.begun s.ended) : s.Lawful t := by
  cases h with
  | going hresult hbegun hended hretries hroom =>
    have hopens : s.call.opens = 0 ∨ s.call.opens = 1 := by
      unfold PacedCall.opens
      split
      · exact Or.inr rfl
      · exact Or.inl rfl
    refine ⟨fun r hr => hretries r (List.dropLast_subset _ hr), ?_, ?_, ?_⟩
    · simpa [hresult, hended] using ⟨hroom, hretries⟩
    · rcases hopens with hopens | hopens
      · exact Or.inr ⟨hresult, by omega⟩
      · exact Or.inl (by omega)
    · intro result hsome
      rw [hresult] at hsome
      cases hsome
  | @done earlier last result hresult hended hbegun hretries hroom hreturns =>
    have hlength : s.ended.length = earlier.length + 1 := by simp [hended]
    have hlast : s.ended.getLast? = some last := by simp [hended]
    refine ⟨by simpa [hended] using hretries, ?_, Or.inl (by omega), ?_⟩
    · rw [hresult]
      refine iff_of_false (by simp) ?_
      rintro ⟨hroom, hall⟩
      cases hreturns with
      | final hfinal => exact hfinal (hall last (List.mem_of_getLast? hlast))
      | exhausted _ _ hmade => omega
    · intro other hother
      rw [hresult, Option.some.injEq] at hother
      subst hother
      exact ⟨by omega, by omega, last, hlast, by rwa [hbegun, ← hlength] at hreturns⟩

/-- A call that has returned does nothing any more. -/
theorem move_of_result? (h : s.call.result?.isSome = true) (m : Move σ β) : s.move t m = s := by
  obtain ⟨⟨stage, failed, wake⟩, timer, made, begun, ended⟩ := s
  cases stage with
  | finished result => cases m <;> simp [move, PacedCall.isDue, PacedCall.wake?, PacedCall.isCalling]
  | _ => cases h

theorem run_of_result? (h : s.call.result?.isSome = true) (moves : List (Move σ β)) : s.run t moves = s := by
  induction moves with
  | nil => rfl
  | cons m moves ih =>
    rw [run, List.foldl_cons, move_of_result? h]
    exact ih

/-- A call that has not returned goes on with the next answer, or once the timer has come to a reading. -/
theorem moves_of_result? (t : CallTerms) (h : s.call.result? = none) :
    (∀ timer answer, s.timer ≤ timer → (s.move t (.answer timer answer : Move σ β)).moves = s.moves + 1) ∨
      ∀ (clock : Clock) (gate : Gate σ), max s.timer s.call.wake ≤ clock.timer →
        (s.move t (.step clock gate : Move σ β)).moves = s.moves + 1 := by
  obtain ⟨⟨stage, failed, wake⟩, timer, made, begun, ended⟩ := s
  cases stage with
  | calling owner =>
    left
    intro now answer hnow
    rw [move, if_pos ⟨hnow, rfl⟩]
  | finished result => cases h
  | _ =>
    right
    intro clock gate hclock
    rw [Nat.max_le] at hclock
    rw [move, if_pos ⟨hclock.1, decide_eq_true hclock.2⟩]

end Execution

end Backfill
