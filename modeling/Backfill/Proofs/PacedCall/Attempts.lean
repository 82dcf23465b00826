import Backfill.Proofs.PacedCall

/-!
# Attempts of a call

A call begins its attempts one by one. It ends with the first answer that no other attempt can mend, or gives up
when its attempts are used up; in between it has failed once for each attempt but the present one. The locks may be
in any state at each of its steps, and it may be told anything.
-/

namespace Backfill.PacedCall

variable {β σ : Type} {t : CallTerms} {c : PacedCall β} {begun timer : Nat}
  {last : Option (Except RpcError β)} {answer result : Except RpcError β}

/-- How many attempts the next step begins. -/
def opens (c : PacedCall β) : Nat :=
  match c.stage with
  | .resting => 1
  | _ => 0

/-- A call on its way, with a record that nothing reads: how many attempts have begun, and what the call was told,
the newest first. -/
inductive Tried (σ : Type) [LockService σ] (t : CallTerms) (allowed : Except RpcError β → Prop) :
    PacedCall β → Nat → List (Except RpcError β) → Prop where
  | fresh (wake : Nat) : Tried σ t allowed { wake } 0 []
  | step {c : PacedCall β} {begun : Nat} {heard : List (Except RpcError β)} (clock : Clock) (gate : Gate σ)
      (h : Tried σ t allowed c begun heard) (hdue : c.isDue clock.timer = true) :
      Tried σ t allowed (c.step t clock gate).1 (begun + c.opens) heard
  | told {c : PacedCall β} {begun : Nat} {heard : List (Except RpcError β)} (timer : Nat)
      (answer : Except RpcError β) (h : Tried σ t allowed c begun heard) (hcalling : c.isCalling = true)
      (hallowed : allowed answer) : Tried σ t allowed (c.answered t timer answer).1 begun (answer :: heard)

/-! ## What a stage tells -/

/-- How an attempt may end, by what was heard last. -/
def Ending (last : Option (Except RpcError β)) (result : Except RpcError β) : Prop :=
  last = some result ∨ ∃ cause, result = .error (.lock cause)

/-- How a call ends. -/
inductive Ended (t : CallTerms) (begun : Nat) (last : Option (Except RpcError β)) : Except RpcError β → Prop where
  | heard {result : Except RpcError β} (hlast : last = some result)
      (hfinal : ∀ e, result = .error e → e.retryable = false) : Ended t begun last result
  | gaveUp {cause : RpcError} (hbegun : begun = t.retry.maxAttempts) (hcause : cause.retryable = true) :
      Ended t begun last (.error (.retriesExhausted t.retry.maxAttempts cause.message))

/-- What the stage of a call tells of its attempts. -/
def Tells (t : CallTerms) (begun : Nat) (last : Option (Except RpcError β)) (c : PacedCall β) : Prop :=
  match c.stage with
  | .resting => begun = c.failed
  | .closing _ answer => begun = c.failed + 1 ∧ last = some answer
  | .leaving _ result => begun = c.failed + 1 ∧ Ending last result
  | .finished result => begun = c.failed + 1 ∧ Ended t begun last result
  | _ => begun = c.failed + 1

/-- The attempts that have begun are those that failed and the present one, and they are not used up. -/
structure Counted (t : CallTerms) (begun : Nat) (last : Option (Except RpcError β)) (c : PacedCall β) : Prop where
  room : c.failed < t.retry.maxAttempts
  tells : Tells t begun last c

/-- After an error that another attempt may mend comes one, if there is one left. -/
theorem settle_retryable {e : RpcError} (he : e.retryable = true) :
    (settle t timer c (.error e)).1 =
      if c.failed + 1 < t.retry.maxAttempts then
        { stage := .resting, failed := c.failed + 1, wake := timer + ofMillis (t.retry.delayMs (c.failed + 1)) }
      else { c with stage := .finished (.error (.retriesExhausted t.retry.maxAttempts e.message)) } := by
  rw [settle, he, Bool.not_true, if_neg Bool.false_ne_true]
  split <;> rfl

theorem counted_settle (hroom : c.failed < t.retry.maxAttempts) (h : Ending last result) :
    Counted t (c.failed + 1) last (settle t timer c result).1 := by
  have hsettled := settled t timer c result
  generalize (settle t timer c result).1 = next at hsettled
  cases hsettled with
  | final hfinal =>
      refine ⟨hroom, rfl, .heard ?_ fun e he => ?_⟩
      · rcases h with hlast | ⟨cause, rfl⟩
        · exact hlast
        · exact absurd ⟨_, rfl, rfl⟩ hfinal
      · rw [← Bool.not_eq_true]
        exact fun hretryable => hfinal ⟨e, he, hretryable⟩
  | again he hmore => exact ⟨hmore, rfl⟩
  | exhausted he hlast => exact ⟨hroom, rfl, .gaveUp (by omega) he⟩

theorem ending_combine {registered : Except LockError Unit} (h : last = some answer) :
    Ending last (combine answer registered) := by
  cases answer with
  | error e => exact Or.inl h
  | ok x =>
      cases registered with
      | error e => exact Or.inr ⟨e, rfl⟩
      | ok _ => exact Or.inl h

theorem Counted.step [LockService σ] (h : Counted t begun last c) (clock : Clock) (gate : Gate σ) :
    Counted t (begun + c.opens) last (c.step t clock gate).1 := by
  obtain ⟨stage, failed, wake⟩ := c
  obtain ⟨hroom, htells⟩ := h
  cases stage with
  | resting =>
      obtain rfl : begun = failed := htells
      simp only [PacedCall.step, opens]
      split <;> exact ⟨hroom, rfl⟩
  | asking owner deadline =>
      obtain rfl : begun = failed + 1 := htells
      simp only [PacedCall.step, asked]
      split
      · exact ⟨hroom, rfl⟩
      · exact ⟨hroom, rfl⟩
      · exact counted_settle hroom (Or.inr ⟨_, rfl⟩)
  | holding owner =>
      obtain rfl : begun = failed + 1 := htells
      simp only [PacedCall.step, spaced]
      split
      · exact ⟨hroom, rfl, Or.inr ⟨_, rfl⟩⟩
      · exact ⟨hroom, rfl⟩
  | spacing owner =>
      obtain rfl : begun = failed + 1 := htells
      simp only [PacedCall.step]
      cases (LockService.record t.lockName clock.date gate.locks).1 with
      | ok _ => exact ⟨hroom, rfl⟩
      | error e => exact ⟨hroom, rfl, Or.inr ⟨e, rfl⟩⟩
  | calling owner => exact ⟨hroom, htells⟩
  | closing owner answer =>
      obtain ⟨rfl, hlast⟩ : begun = failed + 1 ∧ last = some answer := htells
      exact ⟨hroom, rfl, ending_combine hlast⟩
  | leaving owner result =>
      obtain ⟨rfl, hending⟩ : begun = failed + 1 ∧ Ending last result := htells
      exact counted_settle hroom hending
  | finished result => exact ⟨hroom, htells⟩

theorem Counted.answered (h : Counted t begun last c) (hcalling : c.isCalling = true) :
    Counted t begun (some answer) (c.answered t timer answer).1 := by
  obtain ⟨stage, failed, wake⟩ := c
  obtain ⟨hroom, htells⟩ := h
  cases stage with
  | calling owner =>
      obtain rfl : begun = failed + 1 := htells
      cases owner with
      | none => exact counted_settle hroom (Or.inl rfl)
      | some owner => exact ⟨hroom, rfl, rfl⟩
  | _ => cases hcalling

theorem answered_of_not_calling (t : CallTerms) (timer : Nat) (answer : Except RpcError β)
    (h : c.isCalling = false) : (c.answered t timer answer).1 = c := by
  obtain ⟨stage, failed, wake⟩ := c
  cases stage with
  | calling owner => cases h
  | _ => rfl

/-! ## The whole way -/

section Way

variable [LockService σ] {allowed : Except RpcError β → Prop} {heard : List (Except RpcError β)}

theorem Tried.counted (h : Tried σ t allowed c begun heard) : Counted t begun heard.head? c := by
  induction h with
  | fresh wake => exact ⟨Nat.lt_of_lt_of_le Nat.one_pos (Nat.le_max_right ..), rfl⟩
  | step clock gate h hdue ih => exact ih.step clock gate
  | told timer answer h hcalling hallowed ih => exact ih.answered hcalling

theorem Tried.allowed_of_mem (h : Tried σ t allowed c begun heard) (hx : answer ∈ heard) : allowed answer := by
  induction h with
  | fresh wake => cases hx
  | step clock gate h hdue ih => exact ih hx
  | told timer first h hcalling hallowed ih =>
      rcases List.mem_cons.1 hx with rfl | hx
      · exact hallowed
      · exact ih hx

/-- Without a delay to keep, an attempt is the call and its answer. -/
theorem Tried.attempt (h : Tried σ t allowed c begun heard) (clock : Clock) (gate : Gate σ) (timer : Nat)
    (hfree : t.minDelay = none) (hrest : c.stage = .resting) (hdue : c.wake ≤ clock.timer) (hallowed : allowed answer) :
    Tried σ t allowed (settle t timer { c with stage := .calling none } answer).1 (begun + 1) (answer :: heard) := by
  obtain ⟨stage, failed, wake⟩ := c
  obtain rfl : stage = .resting := hrest
  have hcall := h.step clock gate (decide_eq_true hdue)
  simp only [PacedCall.step, opens, hfree, Option.isNone_none, if_true] at hcall
  exact hcall.told timer answer rfl hallowed

/-- A call ends with what it was told last if that is no error that another attempt may mend, else when all its
attempts have begun. -/
theorem Tried.ended (h : Tried σ t allowed c begun heard) (hresult : c.result? = some result) :
    begun ≤ t.retry.maxAttempts ∧ Ended t begun heard.head? result := by
  obtain ⟨stage, failed, wake⟩ := c
  obtain ⟨hroom, htells⟩ := h.counted
  cases stage with
  | finished r =>
      cases hresult
      obtain ⟨hbegun, hended⟩ : begun = failed + 1 ∧ Ended t begun heard.head? result := htells
      exact ⟨hbegun ▸ hroom, hended⟩
  | _ => cases hresult

end Way

end Backfill.PacedCall
