import Backfill.Lock

/-!
# What owners do to each other's locks

Whatever an owner does, the locks of the others stay until they expire, and nobody else gets one by it. The
register of calls has the date of the last record.
-/

namespace Backfill.Locks

variable {l l' : Locks} {now : Timestamp} {key owner : String} {lease : Lease} {expirySeconds : Nat}

/-- What the locks of an owner can suffer at a date from others: they stay, unless they have expired, and the
owner does not get new ones. -/
structure Spares (now : Timestamp) (owner : String) (l l' : Locks) : Prop where
  kept : ∀ {key : String} {lease : Lease}, l.leases.get? key = some lease → lease.owner = owner →
    l'.leases.get? key = some lease ∨ lease.expires ≤ now
  known : ∀ {key : String} {lease : Lease}, l'.leases.get? key = some lease → lease.owner = owner →
    l.leases.get? key = some lease

theorem spares_of_leases_eq (h : l'.leases = l.leases) : Spares now owner l l' where
  kept hl _ := Or.inl (h ▸ hl)
  known hl _ := h ▸ hl

theorem leases_take : (l.take now key owner expirySeconds).leases =
    l.leases.set key ⟨owner, now.after (expirySeconds * giga)⟩ := rfl

theorem current?_eq_some : l.current? now key = some lease ↔
    l.leases.get? key = some lease ∧ Axis.before now lease.expires = true := by
  rw [current?, Option.filter_eq_some_iff]

/-- A lock is given to whoever asks, if nobody else holds it. -/
theorem acquire_cases (l : Locks) (now : Timestamp) (key owner : String) (expirySeconds : Nat) :
    (∃ other, l.acquire now key owner expirySeconds = (.heldBy other, l)) ∨
      l.acquire now key owner expirySeconds = (.acquired, l.take now key owner expirySeconds) ∧
        ∀ lease, l.leases.get? key = some lease → lease.owner = owner ∨ lease.expires ≤ now := by
  unfold acquire
  split
  · rename_i lease hlease
    obtain ⟨hget, -⟩ := current?_eq_some.1 hlease
    split
    · rename_i howner
      refine Or.inr ⟨rfl, fun other hother => Or.inl ?_⟩
      rw [hget, Option.some.injEq] at hother
      exact hother ▸ howner
    · exact Or.inl ⟨lease.owner, rfl⟩
  · rename_i hnone
    refine Or.inr ⟨rfl, fun lease hlease => Or.inr ?_⟩
    apply Decidable.byContradiction
    intro hlate
    have hcurrent := current?_eq_some.2 ⟨hlease, decide_eq_true hlate⟩
    rw [hnone] at hcurrent
    cases hcurrent

theorem spares_take {other : String} (hother : other ≠ owner)
    (hfree : ∀ lease, l.leases.get? key = some lease → lease.owner = owner ∨ lease.expires ≤ now) :
    Spares now other l (l.take now key owner expirySeconds) where
  kept {k lease} hl ho := by
    rw [leases_take, Keyed.get?_set]
    split
    · rename_i hk
      rcases hfree lease (hk ▸ hl) with hmine | hlate
      · exact absurd (ho.symm.trans hmine) hother
      · exact Or.inr hlate
    · exact Or.inl hl
  known {k lease} hl ho := by
    rw [leases_take, Keyed.get?_set] at hl
    split at hl
    · cases hl
      exact absurd ho.symm hother
    · exact hl

theorem spares_release {other : String} (hother : other ≠ owner) :
    Spares now other l (l.release now key owner).2 := by
  unfold release
  split
  · exact spares_of_leases_eq rfl
  · rename_i held hheld
    split
    · rename_i howner
      refine ⟨fun {k lease} hl ho => ?_, fun {k lease} hl _ => ?_⟩
      · rw [Keyed.get?_erase]
        split
        · rename_i hk
          rw [hk, hheld] at hl
          cases hl
          exact absurd (ho.symm.trans howner) hother
        · exact Or.inl hl
      · rw [Keyed.get?_erase] at hl
        split at hl
        · cases hl
        · exact hl
    · split <;> exact spares_of_leases_eq rfl

/-! ## The register of calls -/

theorem calls_release (l : Locks) (now : Timestamp) (key owner : String) :
    (l.release now key owner).2.calls = l.calls := by
  unfold release
  split
  · rfl
  · split
    · rfl
    · split <;> rfl

theorem lastCall?_record (l : Locks) (key other : String) (at' : Timestamp) :
    (l.record key at').lastCall? other =
      if other = key then some ((l.lastCall? key).elim at' (Axis.later · at')) else l.lastCall? other :=
  Keyed.get?_set ..

/-- A record at a date that is not before the last call becomes the last call. -/
theorem lastCall?_record_self {at' : Timestamp} (h : ∀ last, l.lastCall? key = some last → last ≤ at') :
    (l.record key at').lastCall? key = some at' := by
  rw [lastCall?_record, if_pos rfl]
  cases hlast : l.lastCall? key with
  | none => rfl
  | some last => rw [Option.elim_some, Axis.later, if_pos (h last hlast)]

end Backfill.Locks
