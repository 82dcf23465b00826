import Backfill.Proofs.Lock

/-!
# Locks exclude

Whoever has taken a lock has it until it expires, whatever the others try under the key and anybody under other
keys; from then on it goes to the first who asks. The lease under a key is all that counts for the uses of that
key, so the main steps are what one use does to it, and the histories follow by induction.
-/

namespace Backfill

/-- What is done under a key. -/
inductive LockUse where
  | acquire (owner : String) (expirySeconds : Nat)
  | release (owner : String)
  | ask
  deriving DecidableEq

namespace LockUse

/-- Who takes or gives back. -/
def owner? : LockUse → Option String
  | acquire owner _ | release owner => some owner
  | ask => none

def isAcquire : LockUse → Bool
  | acquire .. => true
  | release _ | ask => false

end LockUse

/-- One use of the locks. -/
structure LockCall where
  date : Timestamp
  key : String
  use : LockUse
  deriving DecidableEq

namespace Locks

variable {l l' : Locks} {taken now : Timestamp} {key owner other : String} {lease : Lease} {seconds : Nat}
  {call : LockCall} {calls : List LockCall}

/-- The locks after a use. -/
def use (l : Locks) (call : LockCall) : Locks :=
  match call.use with
  | .acquire owner seconds => (l.acquire call.date call.key owner seconds).2
  | .release owner => (l.release call.date call.key owner).2
  | .ask => l

/-- The locks after a history. -/
def run (l : Locks) (calls : List LockCall) : Locks := calls.foldl use l

/-- The use gives its lock to this owner. -/
def Grants (l : Locks) (call : LockCall) (owner : String) : Prop :=
  ∃ seconds, call.use = .acquire owner seconds ∧ (l.acquire call.date call.key owner seconds).1 = .acquired

/-- Nobody but the owner gets the lock of a key or frees it, and it is known whose it is. -/
structure HeldBy (l : Locks) (now : Timestamp) (key owner : String) : Prop where
  refused : ∀ other, other ≠ owner → ∀ seconds, l.acquire now key other seconds = (.heldBy owner, l)
  kept : ∀ other, other ≠ owner → l.release now key other = (.error (.notOwner key owner), l)
  known : l.owner? now key = some owner

/-! ## One use -/

theorem acquire_of_current?_eq_some (h : l.current? now key = some lease) (hother : lease.owner ≠ other) :
    l.acquire now key other seconds = (.heldBy lease.owner, l) := by
  simp [acquire, h, hother]

theorem acquire_of_expired (h : ∀ lease, l.leases.get? key = some lease → lease.expires ≤ now) :
    l.acquire now key owner seconds = (.acquired, l.take now key owner seconds) := by
  cases hcurrent : l.current? now key with
  | none => simp [acquire, hcurrent]
  | some lease =>
    obtain ⟨hlease, hbefore⟩ := current?_eq_some.1 hcurrent
    exact absurd (h lease hlease) (of_decide_eq_true hbefore)

theorem release_of_not_own (h : ∀ lease, l.leases.get? key = some lease → lease.owner ≠ owner) :
    (l.release now key owner).2 = l ∧ (l.release now key owner).1 ≠ .ok .released := by
  cases hlease : l.leases.get? key with
  | none => simp [release, hlease]
  | some lease =>
    have hother := h lease hlease
    by_cases hexpired : lease.expires ≤ now <;> simp [release, hlease, hother, hexpired]

theorem heldBy_of_current? (h : l.current? now key = some lease) : l.HeldBy now key lease.owner where
  refused other hother seconds := acquire_of_current?_eq_some h hother.symm
  kept other hother := by
    obtain ⟨hlease, hbefore⟩ := current?_eq_some.1 h
    have hopen : ¬ lease.expires ≤ now := of_decide_eq_true hbefore
    simp [release, hlease, hother.symm, hopen]
  known := by simp [owner?, h]

theorem get?_acquire_of_ne (h : other ≠ key) :
    (l.acquire now key owner seconds).2.leases.get? other = l.leases.get? other := by
  rcases acquire_cases l now key owner seconds with ⟨holder, hheld⟩ | ⟨htaken, -⟩
  · rw [hheld]
  · simp [htaken, leases_take, Keyed.get?_set, h]

theorem get?_release_of_ne (h : other ≠ key) :
    (l.release now key owner).2.leases.get? other = l.leases.get? other := by
  unfold release
  split
  · rfl
  · split
    · simp [Keyed.get?_erase, h]
    · split <;> rfl

theorem get?_use_of_ne (h : call.key ≠ key) : (l.use call).leases.get? key = l.leases.get? key := by
  unfold use
  split
  · exact get?_acquire_of_ne h.symm
  · exact get?_release_of_ne h.symm
  · rfl

/-- The lease under a key is all that the uses of the key depend on. -/
theorem get?_use_congr (h : l.leases.get? call.key = l'.leases.get? call.key) :
    (l.use call).leases.get? call.key = (l'.use call).leases.get? call.key := by
  unfold use
  split
  · have hcurrent : l.current? call.date call.key = l'.current? call.date call.key := by
      rw [current?, current?, h]
    simp only [acquire, hcurrent]
    split
    · split
      · simp [leases_take]
      · exact h
    · simp [leases_take]
  · simp only [release, h]
    split
    · exact h
    · split
      · simp [Keyed.get?_erase]
      · split <;> exact h
  · exact h

/-- Others do not touch a lease, unless they take it after it has expired. -/
theorem get?_use_of_other (hlease : l.leases.get? key = some lease)
    (hother : call.key = key → call.use.owner? ≠ some lease.owner)
    (hopen : call.key = key → call.use.isAcquire = true → ¬ lease.expires ≤ call.date) :
    (l.use call).leases.get? key = some lease := by
  by_cases hkey : call.key = key
  · subst hkey
    have hother := hother rfl
    have hopen := hopen rfl
    unfold use
    split
    · rename_i owner seconds huse
      simp only [huse, LockUse.owner?, LockUse.isAcquire, ne_eq, Option.some.injEq, forall_const] at hother hopen
      have hcurrent := current?_eq_some.2 ⟨hlease, decide_eq_true hopen⟩
      rw [acquire_of_current?_eq_some hcurrent (Ne.symm hother)]
      exact hlease
    · rename_i owner huse
      simp only [huse, LockUse.owner?, ne_eq, Option.some.injEq] at hother
      have hnot : ∀ held, l.leases.get? call.key = some held → held.owner ≠ owner := by
        intro held hheld
        cases hlease.symm.trans hheld
        exact Ne.symm hother
      rw [(release_of_not_own hnot).1]
      exact hlease
    · exact hlease
  · rw [get?_use_of_ne hkey]
    exact hlease

/-- An owner who is not given the lock does not have it. -/
theorem not_own_use (hnot : ∀ lease, l.leases.get? key = some lease → lease.owner ≠ owner)
    (hgrants : call.key = key → ¬ l.Grants call owner) :
    ∀ lease, (l.use call).leases.get? key = some lease → lease.owner ≠ owner := by
  by_cases hkey : call.key = key
  · subst hkey
    have hgrants := hgrants rfl
    unfold use
    split
    · rename_i asker seconds huse
      rcases acquire_cases l call.date call.key asker seconds with ⟨holder, hheld⟩ | ⟨htaken, -⟩
      · rw [hheld]
        exact hnot
      · intro lease hlease howner
        simp only [htaken, leases_take, Keyed.get?_set_self, Option.some.injEq] at hlease
        subst hlease
        subst howner
        exact hgrants ⟨seconds, huse, by rw [htaken]⟩
    · rename_i asker huse
      unfold release
      split
      · exact hnot
      · split
        · simp [Keyed.get?_erase]
        · split <;> exact hnot
    · exact hnot
  · rw [get?_use_of_ne hkey]
    exact hnot

/-! ## Histories -/

theorem get?_run_of_other (hlease : l.leases.get? key = some lease)
    (hother : ∀ call ∈ calls, call.key = key → call.use.owner? ≠ some lease.owner)
    (hopen : ∀ call ∈ calls, call.key = key → call.use.isAcquire = true → ¬ lease.expires ≤ call.date) :
    (l.run calls).leases.get? key = some lease := by
  induction calls generalizing l with
  | nil => exact hlease
  | cons call rest ih =>
    simp only [List.forall_mem_cons] at hother hopen
    exact ih (get?_use_of_other hlease hother.1 hopen.1) hother.2 hopen.2

theorem not_own_run (hnot : ∀ lease, l.leases.get? key = some lease → lease.owner ≠ owner)
    (hgrants : ∀ earlier call rest, calls = earlier ++ call :: rest → call.key = key →
      ¬ (l.run earlier).Grants call owner) :
    ∀ lease, (l.run calls).leases.get? key = some lease → lease.owner ≠ owner := by
  induction calls generalizing l with
  | nil => exact hnot
  | cons call rest ih =>
    have hstep := not_own_use hnot (hgrants [] call rest rfl)
    apply ih hstep
    intro earlier next rest' heq
    exact hgrants (call :: earlier) next rest' (by rw [heq, List.cons_append])

/-- Uses of other keys do not count. -/
theorem get?_run_filter (h : l.leases.get? key = l'.leases.get? key) (calls : List LockCall) :
    (l.run calls).leases.get? key = (l'.run (calls.filter (·.key == key))).leases.get? key := by
  induction calls generalizing l l' with
  | nil => exact h
  | cons call rest ih =>
    by_cases hkey : call.key = key
    · rw [List.filter_cons_of_pos (by simpa using hkey)]
      apply ih
      subst hkey
      exact get?_use_congr h
    · rw [List.filter_cons_of_neg (by simpa using hkey)]
      apply ih
      rw [get?_use_of_ne hkey, h]

theorem get?_acquire_of_acquired (h : (l.acquire now key owner seconds).1 = .acquired) :
    (l.acquire now key owner seconds).2.leases.get? key = some ⟨owner, now.after (seconds * giga)⟩ := by
  rcases acquire_cases l now key owner seconds with ⟨holder, hheld⟩ | ⟨htaken, -⟩
  · rw [hheld] at h
    cases h
  · rw [htaken, leases_take, Keyed.get?_set_self]

/-- Who is not given the lock again has nothing to give back. -/
theorem release_after_takeover (hother : other ≠ owner) (htaken : (l.acquire taken key other seconds).1 = .acquired)
    (hgrants : ∀ earlier call rest, calls = earlier ++ call :: rest → call.key = key →
      ¬ ((l.acquire taken key other seconds).2.run earlier).Grants call owner) :
    let after := (l.acquire taken key other seconds).2.run calls
    (after.release now key owner).2 = after ∧ (after.release now key owner).1 ≠ .ok .released := by
  apply release_of_not_own
  apply not_own_run _ hgrants
  intro lease hlease
  cases (get?_acquire_of_acquired htaken).symm.trans hlease
  exact hother

/-- The owner of a lock has it until it expires, unless it gives it back or takes it anew, and then it goes to the
first who asks. Nobody frees a lock that somebody else has taken since, and what is done under other keys does not
count. -/
theorem exclusive_until_expiry (l : Locks) (key owner : String) :
    (∀ (taken now : Timestamp) (seconds : Nat) (between : List LockCall),
      (taken :: between.map (·.date) ++ [now]).Pairwise (· ≤ ·) →
      (l.acquire taken key owner seconds).1 = .acquired →
      (∀ call ∈ between, call.key = key → call.use.owner? ≠ some owner) →
      let expiry := taken.after (seconds * giga)
      let after := (l.acquire taken key owner seconds).2.run between
      (¬ expiry ≤ now → after.HeldBy now key owner) ∧
      (expiry ≤ now → (∀ call ∈ between, call.key = key → call.use.isAcquire = true → ¬ expiry ≤ call.date) →
        ∀ next more, after.acquire now key next more = (.acquired, after.take now key next more))) ∧
    (∀ (taken now : Timestamp) (other : String) (seconds : Nat) (later : List LockCall), other ≠ owner →
      (l.acquire taken key other seconds).1 = .acquired →
      (∀ earlier call rest, later = earlier ++ call :: rest → call.key = key →
        ¬ ((l.acquire taken key other seconds).2.run earlier).Grants call owner) →
      let after := (l.acquire taken key other seconds).2.run later
      (after.release now key owner).2 = after ∧ (after.release now key owner).1 ≠ .ok .released) ∧
    ∀ calls : List LockCall,
      (l.run calls).leases.get? key = (l.run (calls.filter (·.key == key))).leases.get? key := by
  refine ⟨?_, fun _ _ _ _ _ => release_after_takeover, get?_run_filter rfl⟩
  intro taken now seconds between hdates hacquired hothers expiry after
  have htaken := get?_acquire_of_acquired hacquired
  have hpast : ∀ call ∈ between, call.date ≤ now := by
    intro call hcall
    rw [List.cons_append, List.pairwise_cons, List.pairwise_append] at hdates
    exact hdates.2.2.2 _ (List.mem_map_of_mem hcall) now (List.mem_singleton_self now)
  constructor
  · intro hopen
    have hlease : after.leases.get? key = some ⟨owner, expiry⟩ := by
      apply get?_run_of_other htaken hothers
      intro call hcall _ _ hexpired
      exact hopen (Int.le_trans hexpired (hpast call hcall))
    exact heldBy_of_current? (current?_eq_some.2 ⟨hlease, decide_eq_true hopen⟩)
  · intro hexpired hfirst next more
    have hlease : after.leases.get? key = some ⟨owner, expiry⟩ := get?_run_of_other htaken hothers hfirst
    apply acquire_of_expired
    intro lease hheld
    cases hlease.symm.trans hheld
    exact hexpired

/-- A lock of one minute: the other owner gets it after the minute, and keeps it when the first gives it back. -/
theorem exclusive_until_expiry_oneMinute :
    let second (n : Nat) := Timestamp.epoch.after (n * giga)
    let first : Locks := (({} : Locks).acquire (second 0) "rpc:a" "one" 60).2
    let between : List LockCall := [⟨second 10, "rpc:a", .acquire "two" 60⟩, ⟨second 20, "rpc:a", .release "two"⟩,
      ⟨second 30, "rpc:b", .acquire "one" 5⟩, ⟨second 40, "rpc:a", .ask⟩]
    let passed := ((first.run between).acquire (second 60) "rpc:a" "two" 60).2
    (first.run between).HeldBy (second 59) "rpc:a" "one" ∧
      ((first.run between).acquire (second 60) "rpc:a" "two" 60).1 = .acquired ∧
      (passed.release (second 61) "rpc:a" "one").2 = passed ∧
      (first.run between).leases.get? "rpc:b" = (first.run [between[2]]).leases.get? "rpc:b" := by
  intro second first between passed
  obtain ⟨held, -⟩ := exclusive_until_expiry {} "rpc:a" "one"
  obtain ⟨-, kept, -⟩ := exclusive_until_expiry (first.run between) "rpc:a" "one"
  obtain ⟨-, -, alone⟩ := exclusive_until_expiry first "rpc:b" "one"
  have free : (first.run between).acquire (second 60) "rpc:a" "two" 60 =
      (.acquired, (first.run between).take (second 60) "rpc:a" "two" 60) :=
    (held (second 0) (second 60) 60 between (by decide +kernel) (by decide +kernel) (by decide +kernel)).2
      (by decide +kernel) (by decide +kernel) "two" 60
  refine ⟨?_, by rw [free], ?_, alone between⟩
  · exact (held (second 0) (second 59) 60 between (by decide +kernel) (by decide +kernel) (by decide +kernel)).1
      (by decide +kernel)
  · exact (kept (second 60) (second 61) "two" 60 [] (by decide) (by rw [free])
      (fun _ _ _ h => absurd h (by simp))).1

end Locks

end Backfill
