import Backfill.Proofs.Pass.Feed

/-!
# What is covered in the end

A call that has come back is delivered before its pass ends, so when all passes have ended the deliveries are
what came back, and when the updater has taken all of them they are what is covered beyond the start.
-/

namespace Backfill

namespace Feed

variable {σ : Type}

/-! ## Calls that came back -/

/-- At some time in a run the call of a batch has come back with an answer. -/
def Returned [LockService σ] (limits : GroupLimits) (s : Feed σ) (moves : List Move)
    (batch : List (Query Entity UInt64)) (answer : BatchAnswer) : Prop :=
  ∃ earlier later, moves = earlier ++ later ∧ ∃ ap ∈ (s.run limits earlier).passes, ap.2.Returned batch answer

/-- What came back is delivered, or a pass still holds it. -/
def Accounted (s : Feed σ) (batch : List (Query Entity UInt64)) (answer : BatchAnswer) : Prop :=
  (∃ ap ∈ s.passes, ap.2.Returned batch answer) ∨ (batch, answer) ∈ s.delivered

variable {batch : List (Query Entity UInt64)} {answer : BatchAnswer}

theorem delivered_receive (limits : GroupLimits) (place : Nat) (clock : Clock) (s : Feed σ) :
    (s.receive limits place clock).delivered = s.delivered := by
  unfold receive
  split <;> rfl

theorem passes_receive (limits : GroupLimits) (place : Nat) (clock : Clock) (s : Feed σ) :
    (s.receive limits place clock).passes = s.passes := by
  unfold receive
  split <;> rfl

/-- A pass among others moves on with what came back to it. -/
theorem Accounted.moved {s s' : Feed σ} (h : s.Accounted batch answer) {place : Nat} {a : Assignment} {p p' : Pass}
    (hp : s.passes[place]? = some (a, p)) (hpasses : s'.passes = s.passes.set place (a, p'))
    (hdelivered : ∀ r ∈ s.delivered, r ∈ s'.delivered)
    (hr : p.Returned batch answer → p'.Returned batch answer ∨ (batch, answer) ∈ s'.delivered) :
    s'.Accounted batch answer := by
  rcases h with ⟨ap, hap, hreturned⟩ | hdone
  · obtain ⟨i, hi⟩ := List.mem_iff_getElem?.1 hap
    rw [Accounted, hpasses]
    by_cases hplace : place = i
    · subst hplace
      rw [hi] at hp
      cases hp
      refine (hr hreturned).imp_left fun hreturned => ⟨(a, p'), ?_, hreturned⟩
      exact List.mem_set (List.getElem?_eq_some_iff.1 hi).1 _
    · refine Or.inl ⟨ap, List.mem_iff_getElem?.2 ⟨i, ?_⟩, hreturned⟩
      rw [List.getElem?_set_ne hplace, hi]
  · exact Or.inr (hdelivered _ hdone)

theorem Accounted.move [LockService σ] {s : Feed σ} (h : s.Accounted batch answer) (limits : GroupLimits) (m : Move) :
    (s.move limits m).Accounted batch answer := by
  cases m with
  | begin a => exact h.imp_left fun ⟨ap, hap, hr⟩ => ⟨ap, List.mem_append_left _ hap, hr⟩
  | step place clock cancelled =>
      rw [Feed.move, stepPass]
      split
      · exact h
      · rename_i a p hp
        split
        · exact h
        · rename_i act hact
          refine h.moved hp rfl (fun r hr => List.mem_append_left _ hr) fun hr => ?_
          refine (Pass.returned_step s.shared hact hr).imp_right fun hsome => List.mem_append_right _ ?_
          rw [hsome]
          exact List.mem_singleton.2 rfl
  | answerTip place clock other =>
      rw [Feed.move, answerTip]
      split
      · exact h
      · rename_i a p hp
        exact h.moved hp rfl (fun r hr => hr) fun hr => Or.inl (Pass.returned_answerTip s.shared hr)
  | answerFetch place clock at' other =>
      rw [Feed.move, answerFetch]
      split
      · exact h
      · rename_i a p hp
        exact h.moved hp rfl (fun r hr => hr) fun hr => Or.inl (Pass.returned_answerFetch s.shared hr)
  | receive place clock =>
      rw [Feed.move, Accounted, passes_receive, delivered_receive]
      exact h
  | deadline clock => exact h

theorem Accounted.run [LockService σ] {s : Feed σ} (h : s.Accounted batch answer) (limits : GroupLimits)
    (moves : List Move) : (s.run limits moves).Accounted batch answer := by
  induction moves generalizing s with
  | nil => exact h
  | cons m moves ih => exact ih (h.move limits m)

/-- What is delivered in a move had come back before. -/
theorem returned_of_mem_delivered_move [LockService σ] {limits : GroupLimits} {s : Feed σ} {m : Move}
    (h : (batch, answer) ∈ (s.move limits m).delivered) :
    (batch, answer) ∈ s.delivered ∨ ∃ ap ∈ s.passes, ap.2.Returned batch answer := by
  cases m with
  | step place clock cancelled =>
      rw [move, stepPass] at h
      split at h
      · exact Or.inl h
      · rename_i a p hp
        split at h
        · exact Or.inl h
        · refine (List.mem_append.1 h).imp_right fun hnew => ⟨(a, p), List.mem_of_getElem? hp, ?_⟩
          exact Pass.returned_of_delivery? (Option.mem_toList.1 hnew)
  | answerTip place clock other =>
      rw [move, answerTip] at h
      split at h <;> exact Or.inl h
  | answerFetch place clock at' other =>
      rw [move, answerFetch] at h
      split at h <;> exact Or.inl h
  | receive place clock =>
      rw [move, delivered_receive] at h
      exact Or.inl h
  | begin a => exact Or.inl h
  | deadline clock => exact Or.inl h

theorem returned_of_mem_delivered [LockService σ] {limits : GroupLimits} {s : Feed σ} {moves : List Move}
    (h : (batch, answer) ∈ (s.run limits moves).delivered) :
    (batch, answer) ∈ s.delivered ∨ Returned limits s moves batch answer := by
  induction moves generalizing s with
  | nil => exact Or.inl h
  | cons m moves ih =>
      rcases ih h with hnow | ⟨earlier, later, rfl, hap⟩
      · refine (returned_of_mem_delivered_move hnow).imp_right fun hap => ?_
        exact ⟨[], m :: moves, rfl, hap⟩
      · exact Or.inr ⟨m :: earlier, later, rfl, hap⟩

/-- Once all passes have ended, what came back is what was delivered. -/
theorem returned_iff_mem_delivered [LockService σ] {limits : GroupLimits} {shared : Shared σ} {moves : List Move}
    (hended : ∀ ap ∈ ((start shared).run limits moves).passes, ap.2.result?.isSome = true) :
    Returned limits (start shared) moves batch answer ↔
      (batch, answer) ∈ ((start shared).run limits moves).delivered := by
  constructor
  · rintro ⟨earlier, later, rfl, hap⟩
    have hkept : ((start shared).run limits (earlier ++ later)).Accounted batch answer := by
      rw [run, List.foldl_append]
      exact Accounted.run (Or.inl hap) limits later
    rcases hkept with ⟨ap, hin, hr⟩ | hdone
    · exact absurd hr (Pass.not_returned_of_result? (hended ap hin))
    · exact hdone
  · intro h
    exact (returned_of_mem_delivered h).resolve_left (by simp [start])

/-! ## The end -/

theorem outbox_receive (limits : GroupLimits) (clock : Clock) (s : Feed σ) :
    (s.receive limits 0 clock).shared.outbox = s.shared.outbox.tail := by
  unfold receive
  cases h : s.shared.outbox with
  | nil => simp [h]
  | cons o outbox => rfl

theorem drain_spec [LockService σ] (limits : GroupLimits) (clock : Clock) (s : Feed σ) :
    (s.drain limits clock).shared.outbox = [] ∧ (s.drain limits clock).delivered = s.delivered := by
  -- the outbox shrinks as it is drained, so the number of outcomes taken is made a number of its own
  suffices h : ∀ n, (s.run limits (List.replicate n (.receive 0 clock))).shared.outbox = s.shared.outbox.drop n ∧
      (s.run limits (List.replicate n (.receive 0 clock))).delivered = s.delivered by
    simpa [drain] using h s.shared.outbox.length
  intro n
  induction n generalizing s with
  | zero => exact ⟨rfl, rfl⟩
  | succ n ih =>
      obtain ⟨houtbox, hdelivered⟩ := ih (s.receive limits 0 clock)
      rw [outbox_receive, List.drop_tail] at houtbox
      exact ⟨houtbox, hdelivered.trans (delivered_receive limits 0 clock s)⟩

/-- Once everything is taken, nothing waits to be merged. -/
theorem Kept.close [LockService σ] {first : Store} {s : Feed σ} (hk : Kept first [] s) (hl : Laden s)
    (limits : GroupLimits) (clock : Clock) (key : String) :
    Range.values ((s.close limits clock).shared.store.covered key) =
      Range.values (first.covered key) ∪
        Range.values (Outcome.succeededFor key (s.delivered.flatMap fun r => Delivery.outcomesOf r.1 r.2)) := by
  obtain ⟨houtbox, hdelivered⟩ := drain_spec limits clock s
  have hdrained : Kept first [] (s.drain limits clock) :=
    (keeps_run hk hl limits fun m hm => by rw [List.eq_of_mem_replicate hm]; trivial).1
  have hclosed : Kept first [] (s.close limits clock) := Kept.tell hdrained limits clock
  have hnone : (s.close limits clock).updater.group ++ [] ++ (s.close limits clock).shared.outbox = [] := by
    change [] ++ [] ++ (s.drain limits clock).shared.outbox = []
    rw [houtbox]
    rfl
  have hall := hclosed.covered key
  rw [hnone] at hall
  change _ ∪ _ = _ ∪ Range.values (Outcome.succeededFor key ((s.drain limits clock).delivered.flatMap _)) at hall
  rw [hdelivered] at hall
  rw [← hall]
  simp [Outcome.succeededFor]

/-- Blocks that a batch brings in for a key: it was answered in full, the answer says at the place of some query
that it did not fail, and the query serves the block to an entity with the key. -/
def Brought (key : String) (batch : List (Query Entity UInt64)) (results : List (Except RpcError Unit)) : Set UInt64 :=
  {x | results.length = batch.length ∧ ∃ (i : Nat) (q : Query Entity UInt64), batch[i]? = some q ∧
    results[i]? = some (.ok ()) ∧ ∃ p ∈ q.served, p.1.importKey = key ∧ ∃ r ∈ p.2, x ∈ r}

theorem mem_values_outcomesOf {batch : List (Query Entity UInt64)} {answer : BatchAnswer} {key : String} {x : UInt64} :
    x ∈ Range.values (Outcome.succeededFor key (Delivery.outcomesOf batch answer)) ↔
      ∃ results, answer = .ok results ∧ x ∈ Brought key batch results := by
  constructor
  · rintro ⟨r, hr, hx⟩
    obtain ⟨results, ha, hlen, i, q, hq, hi, p, hp, hkey, hr⟩ := Delivery.mem_succeededFor_outcomesOf.1 hr
    exact ⟨results, ha, hlen, i, q, hq, hi, p, hp, hkey, r, hr, hx⟩
  · rintro ⟨results, ha, hlen, i, q, hq, hi, p, hp, hkey, r, hr, hx⟩
    exact ⟨r, Delivery.mem_succeededFor_outcomesOf.2 ⟨results, ha, hlen, i, q, hq, hi, p, hp, hkey, hr⟩, hx⟩

theorem mem_covered_close_iff [LockService σ] (limits : GroupLimits) (clock : Clock) {shared : Shared σ}
    (hs : shared.store.Recording) {moves : List Move} (hm : ∀ m ∈ moves, m.OnBlocks) {key : String} {x : UInt64} :
    x ∈ Range.values ((((start shared).run limits moves).close limits clock).shared.store.covered key) ↔
      x ∈ Range.values (shared.store.covered key) ∨ ∃ batch results,
        (batch, .ok results) ∈ ((start shared).run limits moves).delivered ∧ x ∈ Brought key batch results := by
  obtain ⟨hk, hl⟩ := keeps_run (kept_start hs) (laden_start shared) limits hm
  rw [hk.close hl limits clock key, Set.mem_union, Outcome.mem_values_succeededFor_flatMap]
  refine or_congr_right ⟨?_, ?_⟩
  · rintro ⟨⟨batch, answer⟩, hr, hx⟩
    obtain ⟨results, rfl, hx⟩ := mem_values_outcomesOf.1 hx
    exact ⟨batch, results, hr, hx⟩
  · rintro ⟨batch, results, hr, hx⟩
    exact ⟨(batch, .ok results), hr, mem_values_outcomesOf.2 ⟨results, rfl, hx⟩⟩

/-- Once all passes have ended and the updater has taken what they sent, a block is covered if and only if it was at
the start or a batch brought it whose call came back. Such a batch was answered by the fetcher, and all that its
queries serve was scanned, for entities that they list. -/
theorem no_false_coverage [LockService σ] (limits : GroupLimits) (clock : Clock) {shared : Shared σ}
    (hs : shared.store.Recording) {moves : List Move} (hm : ∀ m ∈ moves, m.OnBlocks)
    (hended : ∀ ap ∈ ((start shared).run limits moves).passes, ap.2.result?.isSome = true) :
    (∀ key x, x ∈ Range.values ((((start shared).run limits moves).close limits clock).shared.store.covered key) ↔
      x ∈ Range.values (shared.store.covered key) ∨ ∃ batch results,
        Returned limits (start shared) moves batch (.ok results) ∧ x ∈ Brought key batch results) ∧
    ∀ batch results, Returned limits (start shared) moves batch (.ok results) →
      (batch, .ok results) ∈ ((start shared).run limits moves).fetched ∧
      ∀ q ∈ batch, ∀ p ∈ q.served, p.1 ∈ q.entities ∧ ∀ r ∈ p.2, ∀ x ∈ r, x ∈ q.range := by
  have hladen := (keeps_run (kept_start hs) (laden_start shared) limits hm).2
  refine ⟨fun key x => ?_, fun batch results hr => ?_⟩
  · simp only [mem_covered_close_iff limits clock hs hm, returned_iff_mem_delivered hended]
  · rw [returned_iff_mem_delivered hended] at hr
    refine ⟨hladen.fetched batch results hr, fun q hq p hp => ?_⟩
    have hsound := hladen.sound _ hr q hq
    exact ⟨hsound.listed p hp, hsound.scanned p hp⟩

def youngPoolAssignment : Assignment where
  setup := ⟨⟨"chain", 12000, 0⟩, [], { mode := .historical, skip := .none }, {}, {}, {}, {}⟩
  endpoint := ⟨⟨"http".toList, [], some "node".toList, none, .segments [], none, none⟩, { minDelay := .noLimit }⟩
  costs := []
  entities := [Plan.youngPool]

def youngPoolShared : Shared Locks := { gate := ⟨{}, 0⟩ }

def youngPoolClock : Clock := ⟨Timestamp.epoch, 0⟩

/-- One pass, with block 6 as the newest one and a batch of one query that does not fail. -/
def youngPoolMoves : List Move :=
  [.begin youngPoolAssignment, .step 0 youngPoolClock false, .step 0 youngPoolClock false,
    .answerTip 0 youngPoolClock (.ok 6), .step 0 youngPoolClock false, .step 0 youngPoolClock false,
    .step 0 youngPoolClock false, .answerFetch 0 youngPoolClock 0 (.ok [.ok ()]), .step 0 youngPoolClock false,
    .step 0 youngPoolClock false]

theorem no_false_coverage_youngPool :
    (((start youngPoolShared).run ⟨100, 1000⟩ youngPoolMoves).close ⟨100, 1000⟩
      youngPoolClock).shared.store.covered "pool" = [⟨5, 6⟩] ∧
    ∃ batch results, Returned ⟨100, 1000⟩ (start youngPoolShared) youngPoolMoves batch (.ok results) ∧
      5 ∈ Brought "pool" batch results := by
  have hmoves : ∀ m ∈ youngPoolMoves, m.OnBlocks := by
    simp [youngPoolMoves, Move.OnBlocks, youngPoolAssignment, Plan.youngPool, Entity.OnBlocks]
  have hstart : youngPoolShared.store.Recording := by
    constructor <;> intro key state h <;> cases h
  have hended : ∀ ap ∈ ((start youngPoolShared).run ⟨100, 1000⟩ youngPoolMoves).passes,
      ap.2.result?.isSome = true := by decide +kernel
  have hend : (((start youngPoolShared).run ⟨100, 1000⟩ youngPoolMoves).close ⟨100, 1000⟩
      youngPoolClock).shared.store.covered "pool" = [⟨5, 6⟩] := by decide +kernel
  have hall := (no_false_coverage ⟨100, 1000⟩ youngPoolClock hstart hmoves hended).1 "pool" 5
  rw [hend] at hall
  refine ⟨hend, (hall.1 ?_).resolve_left ?_⟩
  · exact Range.mem_values_singleton.2 (Range.contains_iff_mem.1 (by decide))
  · rintro ⟨r, hr, -⟩
    cases hr

end Feed

end Backfill
