import Backfill.Proofs.PacedCall.Crowd
import Backfill.Proofs.PacedCall.Retries

/-!
# Owners leave no lock behind

Every lock in memory is held by the present attempt of some caller. An attempt that ends gives its lock back, and no
other one ever goes by the name of its owner, so that nothing is left of it, however it ended. A call to a provider
without a delay has no owner at all and leaves the locks alone.
-/

namespace Backfill

theorem Locks.get?_of_release {l : Locks} {now : Timestamp} {key other owner : String} {lease : Lease}
    (h : (l.release now key owner).2.leases.get? other = some lease) :
    l.leases.get? other = some lease ∧ (other = key → lease.owner ≠ owner) := by
  unfold release at h
  split at h
  · rename_i hnone
    refine ⟨h, fun hkey => ?_⟩
    rw [hkey, hnone] at h
    cases h
  · rename_i held hheld
    split at h
    · rw [Keyed.get?_erase] at h
      split at h
      · cases h
      · rename_i hkey
        exact ⟨h, fun heq => absurd heq hkey⟩
    · rename_i howner
      have hother : l.leases.get? other = some lease := by split at h <;> exact h
      refine ⟨hother, fun hkey => ?_⟩
      rw [hkey, hheld, Option.some.injEq] at hother
      exact hother ▸ howner

namespace PacedCall

variable {β σ : Type} {t : CallTerms} {clock : Clock} {c : PacedCall β} {owner key : String} {lease : Lease}

/-- The owner under which the lock was taken and not yet given back. -/
def locked? (c : PacedCall β) : Option String :=
  match c.stage with
  | .holding owner => some owner
  | .spacing owner => some owner
  | .calling owner => owner
  | .closing owner _ => some owner
  | .leaving owner _ => some owner
  | _ => none

theorem owner?_of_locked? (h : c.locked? = some owner) : c.owner? = some owner := by
  obtain ⟨stage, failed, wake⟩ := c
  cases stage with
  | resting => cases h
  | asking => cases h
  | finished => cases h
  | _ => exact h

/-- A lease is the one of the call that goes on, or was there, and the call gives its own one back. -/
theorem leases_step (t : CallTerms) (clock : Clock) (c : PacedCall β) (gate : Gate Locks)
    (h : (c.step t clock gate).2.1.locks.leases.get? key = some lease) :
    (key = t.lockName ∧ (c.step t clock gate).1.locked? = some lease.owner) ∨
      (gate.locks.leases.get? key = some lease ∧
        (key = t.lockName → c.locked? = some lease.owner → (c.step t clock gate).1.locked? = some lease.owner)) := by
  obtain ⟨stage, failed, wake⟩ := c
  cases stage with
  | resting =>
    refine Or.inr ⟨?_, fun _ hlocked => by cases hlocked⟩
    simp only [step] at h
    split at h <;> exact h
  | asking owner deadline =>
    rcases gate.locks.acquire_cases clock.date t.lockName owner t.lock.expirySeconds with ⟨other, hclaim⟩ | ⟨hclaim, -⟩
    · simp only [step, LockService.acquire, hclaim, Prod.map] at h
      exact Or.inr ⟨h, fun _ hlocked => by cases hlocked⟩
    · simp only [step, LockService.acquire, hclaim, Prod.map, asked, Attempt.ofClaim] at h ⊢
      rw [id, Locks.leases_take, Keyed.get?_set] at h
      split at h
      · rename_i hkey
        cases h
        exact Or.inl ⟨hkey, rfl⟩
      · rename_i hkey
        exact Or.inr ⟨h, fun heq => absurd heq hkey⟩
  | holding owner => exact Or.inr ⟨h, fun _ hlocked => hlocked⟩
  | spacing owner => exact Or.inr ⟨h, fun _ hlocked => hlocked⟩
  | closing owner answer => exact Or.inr ⟨h, fun _ hlocked => hlocked⟩
  | leaving owner result =>
    obtain ⟨hold, hother⟩ := Locks.get?_of_release h
    exact Or.inr ⟨hold, fun hkey hlocked => absurd (Option.some.inj hlocked).symm (hother hkey)⟩
  | calling owner => exact Or.inr ⟨h, fun _ hlocked => hlocked⟩
  | finished result => exact Or.inr ⟨h, fun _ hlocked => hlocked⟩

theorem locked?_answered (timer : Nat) (answer : Except RpcError β) (h : c.locked? = some owner) :
    (c.answered t timer answer).1.locked? = some owner := by
  obtain ⟨stage, failed, wake⟩ := c
  cases stage with
  | calling other =>
    cases other with
    | none => cases h
    | some other => exact h
  | _ => exact h

/-- Without a delay to keep there is no owner, and the locks are left alone. -/
theorem unlimited_step [LockService σ] (hfree : t.minDelay = none) (hc : c.owner? = none) (clock : Clock)
    (gate : Gate σ) : (c.step t clock gate).1.owner? = none ∧ (c.step t clock gate).2.1 = gate := by
  obtain ⟨stage, failed, wake⟩ := c
  cases stage with
  | resting => simp [step, hfree, owner?]
  | calling owner => exact ⟨hc, rfl⟩
  | finished result => exact ⟨rfl, rfl⟩
  | _ => cases hc

end PacedCall

namespace Execution

variable {β σ : Type} [LockService σ] {t : CallTerms} {s : Execution β}

theorem unlimited_run (hfree : t.minDelay = none) (h : s.call.owner? = none) (moves : List (Move σ β)) :
    (s.run t moves).call.owner? = none := by
  induction moves generalizing s with
  | nil => exact h
  | cons m moves ih =>
    apply ih
    cases m with
    | step clock gate =>
      rw [move]
      split
      · exact (PacedCall.unlimited_step hfree h clock gate).1
      · exact h
    | answer timer answer =>
      rw [move]
      split
      · rw [← Option.not_isSome_iff_eq_none, Option.isSome_iff_exists]
        rintro ⟨owner, howner⟩
        rw [PacedCall.owner?_of_answered howner] at h
        cases h
      · exact h

end Execution

namespace Crowd

variable {β : Type} {s : Crowd β} {place i : Nat} {c d : Caller β} {owner key : String} {lease : Lease}

/-- The caller that a move is about, if it is there already. -/
def Move.place? : Move β → Option Nat
  | .enter _ => none
  | .step place => some place
  | .answer place _ => some place

theorem owners_le_move (s : Crowd β) (m : Clock × Move β) : s.gate.owners ≤ (s.move m).gate.owners := by
  obtain ⟨clock, m⟩ := m
  cases m with
  | enter terms => exact Nat.le_refl _
  | step place =>
    simp only [move, step]
    split
    · exact Nat.le_refl _
    · split
      · exact (PacedCall.stepped_step _ clock _ s.gate).owners_le
      · exact Nat.le_refl _
  | answer place answer =>
    simp only [move, Crowd.answer]
    split <;> exact Nat.le_refl _

/-- An owner was there at the same place, or its name is new. -/
theorem owner?_move {m : Clock × Move β} (h : (s.move m).callers[i]? = some d) (howner : d.call.owner? = some owner) :
    (∃ c, s.callers[i]? = some c ∧ c.call.owner? = some owner) ∨
      (owner = PacedCall.ownerName s.gate.owners ∧ (s.move m).gate.owners = s.gate.owners + 1 ∧
        m.2.place? = some i) := by
  obtain ⟨clock, m⟩ := m
  cases m with
  | enter terms =>
    rcases getElem?_or_eq_of_append h with hold | rfl
    · exact Or.inl ⟨d, hold, howner⟩
    · cases howner
  | step place =>
    simp only [move, step] at h ⊢
    cases hplace : s.callers[place]? with
    | none =>
      rw [hplace] at h
      exact Or.inl ⟨d, h, howner⟩
    | some c =>
      simp only [hplace] at h ⊢
      split at h
      · rename_i hdue
        rw [if_pos hdue]
        rcases eq_or_getElem?_of_set h with ⟨rfl, rfl⟩ | ⟨-, hold⟩
        · rcases (PacedCall.stepped_step c.terms clock c.call s.gate).owner? howner with hold | ⟨hname, howners⟩
          · exact Or.inl ⟨c, hplace, hold⟩
          · exact Or.inr ⟨hname, howners, rfl⟩
        · exact Or.inl ⟨d, hold, howner⟩
      · exact Or.inl ⟨d, h, howner⟩
  | answer place answer =>
    simp only [move, Crowd.answer] at h
    cases hplace : s.callers[place]? with
    | none =>
      rw [hplace] at h
      exact Or.inl ⟨d, h, howner⟩
    | some c =>
      simp only [hplace] at h
      rcases eq_or_getElem?_of_set h with ⟨rfl, rfl⟩ | ⟨-, hold⟩
      · exact Or.inl ⟨c, hplace, PacedCall.owner?_of_answered howner⟩
      · exact Or.inl ⟨d, hold, howner⟩

theorem Named.move (h : Named s.gate.owners s.callers) (m : Clock × Move β) :
    Named (s.move m).gate.owners (s.move m).callers where
  known {i c owner} hc howner := by
    rcases owner?_move hc howner with ⟨c, hc, hold⟩ | ⟨hname, howners, -⟩
    · obtain ⟨n, hn, hname⟩ := h.known hc hold
      exact ⟨n, Nat.lt_of_lt_of_le hn (owners_le_move s m), hname⟩
    · exact ⟨s.gate.owners, by omega, hname⟩
  distinct {i j c d owner} hc hd hcowner hdowner := by
    -- the name of an owner that was there is not the new one
    have hknown : ∀ {i : Nat} {c : Caller β}, s.callers[i]? = some c → c.call.owner? = some owner →
        owner ≠ PacedCall.ownerName s.gate.owners := by
      intro i c hc howner heq
      obtain ⟨n, hn, hname⟩ := h.known hc howner
      exact absurd (PacedCall.ownerName_inj (hname.symm.trans heq)) (Nat.ne_of_lt hn)
    rcases owner?_move hc hcowner with ⟨c', hc', hcold⟩ | ⟨hcname, -, hcplace⟩
    · rcases owner?_move hd hdowner with ⟨d', hd', hdold⟩ | ⟨hdname, -, -⟩
      · exact h.distinct hc' hd' hcold hdold
      · exact absurd hdname (hknown hc' hcold)
    · rcases owner?_move hd hdowner with ⟨d', hd', hdold⟩ | ⟨-, -, hdplace⟩
      · exact absurd hcname (hknown hd' hdold)
      · exact Option.some.inj (hcplace.symm.trans hdplace)

/-- A name that an owner at the place has had; nobody has it anywhere else. -/
structure Had (owner : String) (place : Nat) (s : Crowd β) : Prop where
  known : ∃ n < s.gate.owners, owner = PacedCall.ownerName n
  here : ∀ {i : Nat} {c : Caller β}, s.callers[i]? = some c → c.call.owner? = some owner → i = place

theorem Had.move (h : s.Had owner place) (m : Clock × Move β) : (s.move m).Had owner place where
  known := by
    obtain ⟨n, hn, hname⟩ := h.known
    exact ⟨n, Nat.lt_of_lt_of_le hn (owners_le_move s m), hname⟩
  here {i c} hc howner := by
    rcases owner?_move hc howner with ⟨c', hc', hold⟩ | ⟨hnew, -, -⟩
    · exact h.here hc' hold
    · obtain ⟨n, hn, hname⟩ := h.known
      exact absurd (PacedCall.ownerName_inj (hname.symm.trans hnew)) (Nat.ne_of_lt hn)

/-- Every lock is that of a caller who has taken it and not given it back. -/
def Held (s : Crowd β) : Prop :=
  ∀ {key : String} {lease : Lease}, s.gate.locks.leases.get? key = some lease →
    ∃ (i : Nat) (c : Caller β), s.callers[i]? = some c ∧ c.terms.lockName = key ∧ c.call.locked? = some lease.owner

theorem Held.set (h : s.Held) (hplace : s.callers[place]? = some c) (next : Caller β) {gate : Gate Locks}
    (hterms : next.terms = c.terms) (starts : List Start)
    (hleases : ∀ {key lease}, gate.locks.leases.get? key = some lease →
      (key = c.terms.lockName ∧ next.call.locked? = some lease.owner) ∨
        (s.gate.locks.leases.get? key = some lease ∧
          (key = c.terms.lockName → c.call.locked? = some lease.owner → next.call.locked? = some lease.owner))) :
    Held ⟨gate, s.callers.set place next, starts⟩ := by
  intro key lease hlease
  obtain ⟨hlt, -⟩ := List.getElem?_eq_some_iff.1 hplace
  have hnext : (s.callers.set place next)[place]? = some next := List.getElem?_set_self hlt
  rcases hleases hlease with ⟨hkey, hlocked⟩ | ⟨hold, hkept⟩
  · exact ⟨place, next, hnext, hterms ▸ hkey.symm, hlocked⟩
  · obtain ⟨i, d, hd, hkey, hlocked⟩ := h hold
    by_cases hi : place = i
    · subst hi
      rw [hplace, Option.some.injEq] at hd
      subst hd
      exact ⟨place, next, hnext, hterms ▸ hkey, hkept hkey.symm hlocked⟩
    · exact ⟨i, d, by rwa [List.getElem?_set_ne hi], hkey, hlocked⟩

theorem Held.move (h : s.Held) (m : Clock × Move β) : (s.move m).Held := by
  obtain ⟨clock, m⟩ := m
  cases m with
  | enter terms =>
    intro key lease hlease
    obtain ⟨i, c, hc, hkey, hlocked⟩ := h hlease
    obtain ⟨hlt, -⟩ := List.getElem?_eq_some_iff.1 hc
    exact ⟨i, c, by rwa [Crowd.move, List.getElem?_append_left hlt], hkey, hlocked⟩
  | step place =>
    simp only [Crowd.move, Crowd.step]
    cases hplace : s.callers[place]? with
    | none => exact h
    | some c =>
      simp only
      split
      · exact h.set hplace (c.goOn clock _) rfl _ fun hlease => PacedCall.leases_step c.terms clock c.call s.gate hlease
      · exact h
  | answer place answer =>
    simp only [Crowd.move, Crowd.answer]
    cases hplace : s.callers[place]? with
    | none => exact h
    | some c =>
      refine h.set hplace { c with call := (c.call.answered c.terms clock.timer answer).1 } rfl _ fun hlease => ?_
      exact Or.inr ⟨hlease, fun _ hlocked => PacedCall.locked?_answered clock.timer answer hlocked⟩

theorem run_induction {P : Crowd β → Prop} (hmove : ∀ s m, P s → P (s.move m)) (h : P s)
    (moves : List (Clock × Move β)) : P (s.run moves) := by
  induction moves generalizing s with
  | nil => exact h
  | cons m moves ih => exact ih (hmove s m h)

/-- Whatever an attempt did and however it ended, no lock is left under the name of its owner. -/
theorem lease_owner_ne {earlier later : List (Clock × Move β)}
    (hc : (({} : Crowd β).run earlier).callers[place]? = some c) (howner : c.call.owner? = some owner)
    (hd : (({} : Crowd β).run (earlier ++ later)).callers[place]? = some d) (hended : d.call.owner? ≠ some owner)
    (hlease : (({} : Crowd β).run (earlier ++ later)).gate.locks.leases.get? key = some lease) :
    lease.owner ≠ owner := by
  have hnamed : Named (({} : Crowd β).run earlier).gate.owners (({} : Crowd β).run earlier).callers :=
    run_induction (P := fun s => Named s.gate.owners s.callers) (fun _ m h => h.move m) orderly_empty.named earlier
  have hhad : (({} : Crowd β).run (earlier ++ later)).Had owner place := by
    rw [run, List.foldl_append]
    apply run_induction (P := (Had owner place ·)) (fun _ m h => h.move m)
    exact ⟨hnamed.known hc howner, fun hi hiowner => hnamed.distinct hi hc hiowner howner⟩
  have hheld : (({} : Crowd β).run (earlier ++ later)).Held :=
    run_induction (P := Held) (fun _ m h => Held.move h m) (fun h => by cases h) _
  rintro rfl
  obtain ⟨i, holder, hi, -, hlocked⟩ := hheld hlease
  have hsame := PacedCall.owner?_of_locked? hlocked
  rw [hhad.here hi hsame, hd, Option.some.injEq] at hi
  exact hended (hi ▸ hsame)

end Crowd

theorem PacedCall.owner?_of_result? {β : Type} {c : PacedCall β} (h : c.result?.isSome = true) : c.owner? = none := by
  obtain ⟨stage, failed, wake⟩ := c
  cases stage with
  | finished result => rfl
  | _ => cases h

/-- A call makes attempts until one is final or all are used up, returns after a bounded number of moves, and then
does nothing any more. Callers that have returned hold no lock, and those without a delay to keep never touch one. -/
theorem Execution.retry_law {β σ : Type} [LockService σ] (t : CallTerms) (wake : Nat) (moves : List (Move σ β)) :
    let s := (start wake).run t moves
    s.Lawful t ∧
    (s.call.result?.isSome = true → ∀ more : List (Move σ β), s.run t more = s) ∧
    (s.call.result? = none →
      (∀ timer answer, s.timer ≤ timer → (s.move t (.answer timer answer : Move σ β)).moves = s.moves + 1) ∨
        ∀ (clock : Clock) (gate : Gate σ), max s.timer s.call.wake ≤ clock.timer →
          (s.move t (.step clock gate : Move σ β)).moves = s.moves + 1) ∧
    s.moves ≤ t.retry.maxAttempts * PacedCall.attemptMoves t ∧
    (t.minDelay = none → ∀ (clock : Clock) (gate : Gate σ), (s.call.step t clock gate).2.1 = gate) ∧
    ∀ (earlier later : List (Clock × Crowd.Move β)) (place : Nat) (c d : Caller β) (owner : String),
      (({} : Crowd β).run earlier).callers[place]? = some c → c.call.owner? = some owner →
      (({} : Crowd β).run (earlier ++ later)).callers[place]? = some d → d.call.result?.isSome = true →
      ∀ key lease, (({} : Crowd β).run (earlier ++ later)).gate.locks.leases.get? key = some lease →
        lease.owner ≠ owner := by
  intro s
  obtain ⟨hstatus, hbounded⟩ : s.Sound t := sound_run (sound_start t wake) moves
  refine ⟨lawful_of_status hstatus, run_of_result?, moves_of_result? t, ?_, ?_, ?_⟩
  · omega
  · intro hfree clock gate
    exact (PacedCall.unlimited_step hfree (unlimited_run hfree rfl moves) clock gate).2
  · intro earlier later place c d owner hc howner hd hreturned key lease
    apply Crowd.lease_owner_ne hc howner hd
    rw [PacedCall.owner?_of_result? hreturned]
    exact nofun

/-- A call that succeeds at the second attempt, and two callers of a provider with a delay. -/
theorem Execution.retry_law_secondAttempt :
    let t : CallTerms := { Crowd.nodeTerms 0 10 with minDelay := none }
    let gate : Gate Locks := ⟨{}, 0⟩
    let s : Execution Nat := (start 0).run t [.step (Crowd.moment 0) gate,
      .answer 0 (.error (.transient "eth_call" "timeout")), .step (Crowd.moment 500) gate,
      .answer (ofMillis 500) (.ok 7)]
    s.call.result? = some (.ok 7) ∧ s.begun = 2 ∧ s.run t [.step (Crowd.moment 1000) gate] = s ∧
      (s.call.step t (Crowd.moment 1000) gate).2.1 = gate ∧
    ∀ lease, (({} : Crowd Nat).run Crowd.twoCallers).gate.locks.leases.get? "rpc:node" = some lease →
      lease.owner ≠ "indexer:0" := by
  intro t gate s
  obtain ⟨hlawful, hstays, -, -, hfree, howners⟩ := retry_law (β := Nat) t 0 [.step (Crowd.moment 0) gate,
    .answer 0 (.error (.transient "eth_call" "timeout")), .step (Crowd.moment 500) gate,
    .answer (ofMillis 500) (.ok 7)]
  have hresult : s.call.result? = some (.ok 7) := by
    have hvalue : s.call.result?.bind Except.toOption = some 7 := by decide +kernel
    obtain ⟨r, hr, hvalue⟩ := Option.bind_eq_some_iff.1 hvalue
    cases r with
    | error e => cases hvalue
    | ok x =>
      cases hvalue
      exact hr
  have hended : s.ended.length = 2 := by decide +kernel
  have hasked : ((({} : Crowd Nat).run (Crowd.twoCallers.take 4)).callers[0]?.map (·.call.owner?)) =
      some (some "indexer:0") := by decide +kernel
  have hreturned : ((({} : Crowd Nat).run Crowd.twoCallers).callers[0]?.map (·.call.result?.isSome)) =
      some true := by decide +kernel
  obtain ⟨c, hc, howner⟩ := Option.map_eq_some_iff.1 hasked
  obtain ⟨d, hd, hdone⟩ := Option.map_eq_some_iff.1 hreturned
  have hnone : t.minDelay = none := rfl
  have hgate := hfree hnone (Crowd.moment 1000) gate
  refine ⟨hresult, ?_, ?_, ?_, ?_⟩
  · rw [(hlawful.returned _ hresult).1, hended]
  · exact hstays (by rw [hresult]; rfl) _
  · with_reducible exact hgate
  · exact howners (Crowd.twoCallers.take 4) (Crowd.twoCallers.drop 4) 0 c d _ hc howner hd hdone _

end Backfill
