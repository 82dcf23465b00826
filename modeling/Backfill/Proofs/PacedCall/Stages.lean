import Backfill.Proofs.Lock
import Backfill.Proofs.PacedCall

/-!
# Stages of a paced call

How a call goes from stage to stage at a gate of locks in memory: under which owner, and what it does to the locks
and to the register of calls on the way.
-/

namespace Backfill.PacedCall

variable {β : Type} {t : CallTerms} {clock : Clock} {c next : PacedCall β} {gate gate' : Gate Locks} {owner : String}

/-- The owner that asks for the lock or had it, until the attempt ends. -/
def owner? (c : PacedCall β) : Option String :=
  match c.stage with
  | .asking owner _ => some owner
  | .holding owner => some owner
  | .spacing owner => some owner
  | .calling owner => owner
  | .closing owner _ => some owner
  | .leaving owner _ => some owner
  | _ => none

/-- The name of the owner that is the next one to ask at a gate where so many have asked. -/
def ownerName (owners : Nat) : String := s!"indexer:{owners}"

theorem ownerName_inj {m n : Nat} (h : ownerName m = ownerName n) : m = n := by
  simp only [ownerName, String.append_right_inj] at h
  have hdigits : Nat.toDigits 10 m = Nat.toDigits 10 n := by
    rw [← Nat.toList_repr, ← Nat.toList_repr]
    exact congrArg String.toList h
  calc m = Nat.ofDigitChars 10 (Nat.toDigits 10 m) 0 := Nat.ofDigitChars_ten_toDigits.symm
    _ = Nat.ofDigitChars 10 (Nat.toDigits 10 n) 0 := by rw [hdigits]
    _ = n := Nat.ofDigitChars_ten_toDigits

/-- No attempt is under way. -/
def Idle (c : PacedCall β) : Prop := c.owner? = none ∧ c.isCalling = false

theorem idle_settle (t : CallTerms) (timer : Nat) (c : PacedCall β) (result : Except RpcError β) :
    (settle t timer c result).1.Idle := by
  have hsettled := settled t timer c result
  generalize (settle t timer c result).1 = next at hsettled
  cases hsettled <;> exact ⟨rfl, rfl⟩

/-- The ways in which a call goes on. -/
inductive Stepped (t : CallTerms) (clock : Clock) (c : PacedCall β) (gate : Gate Locks) :
    PacedCall β → Gate Locks → Prop where
  | unlimited (h : t.minDelay = none) : Stepped t clock c gate { c with stage := .calling none } gate
  | asks {deadline : Nat} (hstage : c.stage = .resting) (h : t.minDelay.isSome = true) :
      Stepped t clock c gate { c with stage := .asking (ownerName gate.owners) deadline }
        { gate with owners := gate.owners + 1 }
  | waits {owner : String} {deadline wake : Nat} (hstage : c.stage = .asking owner deadline) :
      Stepped t clock c gate { c with stage := .asking owner deadline, wake } gate
  | takes {owner : String} {deadline : Nat} (hstage : c.stage = .asking owner deadline)
      (hfree : ∀ lease, gate.locks.leases.get? t.lockName = some lease →
        lease.owner = owner ∨ lease.expires ≤ clock.date) :
      Stepped t clock c gate { c with stage := .holding owner }
        { gate with locks := gate.locks.take clock.date t.lockName owner t.lock.expirySeconds }
  | looks {owner : String} (hstage : c.stage = .holding owner) :
      Stepped t clock c gate
        { c with
          stage := .spacing owner
          wake := clock.timer + (gate.locks.lastCall? t.lockName).elim 0 fun last =>
            Timestamp.remainingDelay last clock.date (t.minDelay.getD 0) } gate
  | begins {owner : String} (hstage : c.stage = .spacing owner) :
      Stepped t clock c gate { c with stage := .calling (some owner) }
        { gate with locks := gate.locks.record t.lockName clock.date }
  | closes {owner : String} {answer result : Except RpcError β} (hstage : c.stage = .closing owner answer) :
      Stepped t clock c gate { c with stage := .leaving owner result }
        { gate with locks := gate.locks.record t.lockName clock.date }
  | leaves {owner : String} {result : Except RpcError β} {next : PacedCall β}
      (hstage : c.stage = .leaving owner result) (hidle : next.Idle) :
      Stepped t clock c gate next { gate with locks := (gate.locks.release clock.date t.lockName owner).2 }
  /-- It could not get the lock in time. -/
  | givesUp {owner : String} {deadline : Nat} {next : PacedCall β} (hstage : c.stage = .asking owner deadline)
      (hidle : next.Idle) : Stepped t clock c gate next gate
  /-- There is nothing to do until an answer comes, or ever. -/
  | rests (hrest : c.wake? = none) : Stepped t clock c gate c gate

theorem stepped_step (t : CallTerms) (clock : Clock) (c : PacedCall β) (gate : Gate Locks) :
    Stepped t clock c gate (c.step t clock gate).1 (c.step t clock gate).2.1 := by
  obtain ⟨stage, failed, wake⟩ := c
  cases stage with
  | resting =>
      simp only [step]
      split
      · rename_i h
        exact .unlimited (Option.isNone_iff_eq_none.1 h)
      · rename_i h
        exact .asks rfl (by rwa [Bool.not_eq_true, Option.isNone_eq_false_iff] at h)
  | asking owner deadline =>
      rcases gate.locks.acquire_cases clock.date t.lockName owner t.lock.expirySeconds with
        ⟨other, h⟩ | ⟨h, hfree⟩
      · simp only [step, LockService.acquire, h, Prod.map, asked, Attempt.ofClaim]
        split
        · rename_i hclaim
          split at hclaim <;> cases hclaim
        · exact .waits rfl
        · exact .givesUp rfl (idle_settle ..)
      · simp only [step, LockService.acquire, h, Prod.map, asked, Attempt.ofClaim]
        exact .takes rfl hfree
  | holding owner => exact .looks rfl
  | spacing owner => exact .begins rfl
  | closing owner answer => exact .closes rfl
  | leaving owner result => exact .leaves rfl (idle_settle ..)
  | calling owner => exact .rests rfl
  | finished result => exact .rests rfl

/-! ## What a step does to others -/

theorem isDue_iff {timer : Nat} : c.isDue timer = true ↔ c.wake? = some c.wake ∧ c.wake ≤ timer := by
  unfold isDue wake?
  split <;> simp

theorem Stepped.owner? (h : Stepped t clock c gate next gate') (hnext : next.owner? = some owner) :
    c.owner? = some owner ∨ owner = ownerName gate.owners ∧ gate'.owners = gate.owners + 1 := by
  cases h with
  | unlimited => cases hnext
  | asks => exact Or.inr ⟨(Option.some.inj hnext).symm, rfl⟩
  | leaves hstage hidle => exact absurd (hidle.1.symm.trans hnext) nofun
  | givesUp hstage hidle => exact absurd (hidle.1.symm.trans hnext) nofun
  | rests => exact Or.inl hnext
  | waits hstage | takes hstage | looks hstage | begins hstage | closes hstage =>
      rw [PacedCall.owner?, hstage]
      exact Or.inl hnext

theorem Stepped.owners_le (h : Stepped t clock c gate next gate') : gate.owners ≤ gate'.owners := by
  cases h with
  | asks => exact Nat.le_succ _
  | _ => exact Nat.le_refl _

/-- Locks of other owners stay until they expire. -/
theorem Stepped.spares (h : Stepped t clock c gate next gate') (howner : c.owner? ≠ some owner) :
    Locks.Spares clock.date owner gate.locks gate'.locks := by
  cases h with
  | takes hstage hfree =>
      rw [PacedCall.owner?, hstage] at howner
      exact Locks.spares_take (fun heq => howner (congrArg some heq.symm)) hfree
  | leaves hstage =>
      rw [PacedCall.owner?, hstage] at howner
      exact Locks.spares_release fun heq => howner (congrArg some heq.symm)
  | _ => exact Locks.spares_of_leases_eq rfl

theorem Stepped.calls (h : Stepped t clock c gate next gate') :
    gate'.locks.calls = gate.locks.calls ∨ gate'.locks = gate.locks.record t.lockName clock.date := by
  cases h with
  | begins => exact Or.inr rfl
  | closes => exact Or.inr rfl
  | leaves => exact Or.inl (Locks.calls_release ..)
  | _ => exact Or.inl rfl

/-- A physical call to a limited provider begins where the caller has let the delay pass, and it is registered. -/
theorem Stepped.begins_of_isCalling (h : Stepped t clock c gate next gate') (hnext : next.isCalling = true)
    (hlimited : t.minDelay ≠ none) (hwake : c.wake? ≠ none) :
    (∃ owner, c.stage = .spacing owner) ∧ gate'.locks = gate.locks.record t.lockName clock.date := by
  cases h with
  | unlimited hnone => exact absurd hnone hlimited
  | begins hstage => exact ⟨⟨_, hstage⟩, rfl⟩
  | leaves hstage hidle => exact absurd (hidle.2.symm.trans hnext) nofun
  | givesUp hstage hidle => exact absurd (hidle.2.symm.trans hnext) nofun
  | rests hrest => exact absurd hrest hwake
  | asks | waits | takes | looks | closes => cases hnext

/-- The answer changes a call that is under way only, and leaves it at a stage without a lock to wait with. -/
theorem answered_cases (t : CallTerms) (timer : Nat) (answer : Except RpcError β) (c : PacedCall β) :
    (c.answered t timer answer).1 = c ∨ ∀ owner, (c.answered t timer answer).1.stage ≠ .holding owner ∧
      (c.answered t timer answer).1.stage ≠ .spacing owner := by
  unfold answered
  split
  · refine Or.inr fun owner => ?_
    obtain ⟨hnone, -⟩ := idle_settle t timer c answer
    constructor <;>
      · intro hstage
        rw [owner?, hstage] at hnone
        cases hnone
  · exact Or.inr fun owner => ⟨nofun, nofun⟩
  · exact Or.inl rfl

theorem owner?_of_answered {timer : Nat} {answer : Except RpcError β}
    (h : (c.answered t timer answer).1.owner? = some owner) : c.owner? = some owner := by
  unfold answered at h
  split at h
  · exact absurd ((idle_settle ..).1.symm.trans h) nofun
  · rename_i first hstage
    rw [owner?, hstage]
    exact h
  · exact h

end Backfill.PacedCall
