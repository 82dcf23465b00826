import Backfill.PacedCall

/-!
# Where a call's result comes from

A call makes up no result: what it has as the answer to its attempt, and at last as its own result, was
handed in as the answer of the physical call, unless it is an error. When an attempt ends, the call returns what
it came to, begins another one, or gives up.
-/

namespace Backfill.PacedCall

variable {β σ : Type} {t : CallTerms} {x : β}

/-- What the call has got for its attempt. -/
def answer? (c : PacedCall β) : Option (Except RpcError β) :=
  match c.stage with
  | .closing _ answer => some answer
  | .leaving _ result => some result
  | .finished result => some result
  | _ => none

/-- The call has a result that is no error. -/
def Holds (c : PacedCall β) (x : β) : Prop := c.answer? = some (.ok x)

theorem answer?_of_result? {c : PacedCall β} {r : Except RpcError β} (h : c.result? = some r) : c.answer? = some r := by
  unfold result? at h
  split at h
  · rename_i r hstage
    rw [answer?, hstage]
    exact h
  · cases h

/-- Another attempt may mend it. -/
def Retries (r : Except RpcError β) : Prop := ∃ e, r = .error e ∧ e.retryable = true

/-- What follows when an attempt ends. -/
inductive Settled (t : CallTerms) (timer : Nat) (c : PacedCall β) : Except RpcError β → PacedCall β → Prop where
  | final {result : Except RpcError β} (h : ¬ Retries result) :
      Settled t timer c result { c with stage := .finished result }
  | again {e : RpcError} (he : e.retryable = true) (hmore : c.failed + 1 < t.retry.maxAttempts) :
      Settled t timer c (.error e)
        { stage := .resting, failed := c.failed + 1, wake := timer + ofMillis (t.retry.delayMs (c.failed + 1)) }
  | exhausted {e : RpcError} (he : e.retryable = true) (hlast : t.retry.maxAttempts ≤ c.failed + 1) :
      Settled t timer c (.error e)
        { c with stage := .finished (.error (.retriesExhausted t.retry.maxAttempts e.message)) }

theorem settled (t : CallTerms) (timer : Nat) (c : PacedCall β) (result : Except RpcError β) :
    Settled t timer c result (settle t timer c result).1 := by
  cases result with
  | ok y =>
      apply Settled.final
      rintro ⟨e, he, -⟩
      cases he
  | error e =>
      rw [settle]
      cases he : e.retryable with
      | false =>
          apply Settled.final
          rintro ⟨e', he', hretryable⟩
          cases he'
          simp [he] at hretryable
      | true =>
          simp only [Bool.not_true, Bool.false_eq_true, if_false]
          split
          · exact .again he ‹_›
          · exact .exhausted he (Nat.le_of_not_lt ‹_›)

theorem eq_of_holds_settle {timer : Nat} {c : PacedCall β} {result : Except RpcError β}
    (h : (settle t timer c result).1.Holds x) : result = .ok x := by
  have hsettled := settled t timer c result
  generalize (settle t timer c result).1 = next at h hsettled
  cases hsettled with
  | final => exact Option.some.inj h
  | again => cases h
  | exhausted => cases h

theorem combine_eq_ok {answer : Except RpcError β} {registered : Except LockError Unit}
    (h : combine answer registered = .ok x) : answer = .ok x := by
  cases answer with
  | error e => cases h
  | ok y =>
      cases registered with
      | error e => cases h
      | ok _ => exact h

/-- A step brings no result. -/
theorem holds_of_step [LockService σ] {clock : Clock} {c : PacedCall β} {gate : Gate σ}
    (h : (c.step t clock gate).1.Holds x) : c.Holds x := by
  obtain ⟨stage, failed, wake⟩ := c
  cases stage with
  | resting =>
      simp only [step] at h
      split at h <;> cases h
  | asking owner deadline =>
      simp only [step, asked] at h
      split at h
      · cases h
      · cases h
      · cases eq_of_holds_settle h
  | holding owner =>
      simp only [step, spaced] at h
      split at h <;> cases h
  | spacing owner =>
      simp only [step] at h
      cases hr : (LockService.record t.lockName clock.date gate.locks).1 <;> simp only [hr] at h <;> cases h
  | closing owner answer =>
      simp only [step, Holds, answer?, Option.some.injEq] at h
      rw [Holds, answer?, combine_eq_ok h]
  | leaving owner result =>
      simp only [step] at h
      rw [Holds, answer?, eq_of_holds_settle h]
  | calling owner => exact h
  | finished result => exact h

theorem holds_of_answered {timer : Nat} {answer : Except RpcError β} {c : PacedCall β}
    (h : (c.answered t timer answer).1.Holds x) : answer = .ok x ∨ c.Holds x := by
  unfold answered at h
  split at h
  · exact Or.inl (eq_of_holds_settle h)
  · exact Or.inl (Option.some.inj h)
  · exact Or.inr h

theorem answered_of_result? {timer : Nat} {answer r : Except RpcError β} {c : PacedCall β} (h : c.result? = some r) :
    (c.answered t timer answer).1 = c := by
  obtain ⟨stage, failed, wake⟩ := c
  cases stage with
  | calling owner => cases h
  | _ => rfl

end Backfill.PacedCall
