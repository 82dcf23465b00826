import Backfill.Proofs.Pass.Closing
import Backfill.Proofs.Pass.Flags
import Backfill.Proofs.Pass.Imported

/-!
# What becomes of a batch

Every range that a batch serves gets one outcome, and a report when its query failed. A pass counts the outcomes
that it sent off, no more and no less, and takes the ends of the successful ones for imported.
-/

namespace Backfill

/-- What the delivery of a batch leaves behind. -/
structure Shared.Sent {σ : Type} (a : Assignment) (batch : List (Query Entity UInt64)) (answer : BatchAnswer)
    (s s' : Shared σ) : Prop where
  outbox : s'.outbox = s.outbox ++ Delivery.servedOutcomes batch answer
  reports : ∃ new, s'.reports = s.reports ++ new ∧ new.map (fun r => (r.importKey, r.range)) =
    ((Delivery.servedOutcomes batch answer).filter (!·.success)).map fun o => (o.importKey, o.range)
  kept : s.archiveNeeded <+: s'.archiveNeeded
  flagged : ∀ key, key ∈ s'.archiveNeeded ↔ key ∈ s.archiveNeeded ∨
    (a.endpoint.limitations.archive = false ∧ Delivery.LacksHistory batch answer key)

/-- Nothing is sent off. -/
structure Shared.Silent {σ : Type} (s s' : Shared σ) : Prop where
  outbox : s'.outbox = s.outbox
  reports : s'.reports = s.reports
  archiveNeeded : s'.archiveNeeded = s.archiveNeeded

namespace Pass

variable {σ : Type} {a : Assignment} {clock : Clock} {cancelled : Bool} {p : Pass} {act : Act σ Pass}

theorem sent_deliver (a : Assignment) (batch : List (Query Entity UInt64)) (answer : BatchAnswer) (s : Shared σ) :
    ((deliver a batch answer).run s).1 = Delivery.servedOutcomes batch answer ∧
      s.Sent a batch answer ((deliver a batch answer).run s).2 := by
  refine ⟨Delivery.outcomesOf_eq batch answer, ?_, ?_, keepsFlags_deliver batch answer s, ?_⟩
  · rw [← Delivery.outcomesOf_eq]
    rfl
  · rw [← Delivery.outcomesOf_eq]
    exact ⟨_, rfl, Delivery.map_reports a.endpoint.lockKey batch answer⟩
  · intro key
    have hrun : ((deliver a batch answer).run s).2.archiveNeeded = s.archiveNeeded ++
        if a.endpoint.limitations.archive then [] else
          Delivery.joining s.archiveNeeded (Delivery.ofBatch batch answer) := rfl
    rw [hrun, List.mem_append]
    cases harchive : a.endpoint.limitations.archive with
    | true => simp
    | false =>
      simp only [Bool.false_eq_true, if_false, Delivery.mem_joining, Delivery.lacksHistory_iff, true_and]
      tauto

theorem silent_opened (s : Shared σ) : s.Silent ((opened (σ := σ) a clock).run s).2 := by
  unfold opened
  split
  · exact ⟨rfl, rfl, rfl⟩
  · split
    · exact ⟨rfl, rfl, rfl⟩
    · simp only [StateT.run_bind, StateT.run_get, pure_bind]
      split <;> exact ⟨rfl, rfl, rfl⟩

/-- A step sends off what the answer to one batch means, or nothing. -/
theorem sent_step [LockService σ] (s : Shared σ) (h : step a clock cancelled p = some act) :
    (∃ batch answer, p.delivery? = some (batch, answer) ∧ s.Sent a batch answer (act.run s).2) ∨
      (p.delivery? = none ∧ s.Silent (act.run s).2) := by
  cases p with
  | opening =>
      cases h
      exact Or.inr ⟨rfl, silent_opened s⟩
  | tip config call =>
      right
      simp only [step] at h
      split at h
      · rename_i r hr
        cases h
        cases r <;> exact ⟨rfl, rfl, rfl, rfl⟩
      · split at h
        · cases h
          exact ⟨rfl, rfl, rfl, rfl⟩
        · cases h
  | fetching f =>
      cases fetchStep_of_step h with
      | deliver before after flight r hf hr hdelivery =>
          exact Or.inl ⟨flight.batch, r, hdelivery, (sent_deliver a flight.batch r s).2⟩
      | begin place batch waiting hnone => exact Or.inr ⟨hnone, rfl, rfl, rfl⟩
      | call before after flight hnone => exact Or.inr ⟨hnone, rfl, rfl, rfl⟩
      | close hnone => exact Or.inr ⟨hnone, rfl, rfl, rfl⟩
  | finished result => cases h

/-- The counts and the last imports are those of the outcomes that the pass has collected. -/
theorem summary_of_step [LockService σ] (s : Shared σ) (h : step a clock cancelled p = some act) {summary : Summary}
    (hend : (act.run s).1.result? = some (.ok summary)) :
    p.delivery? = none ∧ summary.covered = (p.outcomes.filter (·.success)).length ∧
      summary.failed = (p.outcomes.filter (!·.success)).length ∧
      (act.run s).2.lastImported = newest s.lastImported p.outcomes := by
  cases p with
  | opening =>
      cases h
      unfold opened at hend ⊢
      split at hend
      · rename_i hnone
        rw [if_pos hnone]
        cases hend
        exact ⟨rfl, rfl, rfl, rfl⟩
      · split at hend
        · cases hend
        · simp only [StateT.run_bind, StateT.run_get, pure_bind] at hend
          split at hend <;> cases hend
  | tip config call =>
      simp only [step] at h
      split at h
      · rename_i r hr
        cases h
        cases r <;> cases hend
      · split at h
        · cases h
          cases hend
        · cases h
  | fetching f =>
      cases fetchStep_of_step h with
      | deliver => cases hend
      | begin => cases hend
      | call => cases hend
      | close hnone =>
          cases hend
          exact ⟨hnone, rfl, rfl, rfl⟩
  | finished result => cases h

theorem result?_of_step [LockService σ] (h : step a clock cancelled p = some act) : p.result? = none := by
  cases p with
  | finished result => cases h
  | _ => rfl

theorem result?_answerTip (answer : Except RpcError UInt64) (p : Pass) (s : Shared σ) :
    ((answerTip a clock answer p).run s).1.result? = p.result? := by
  cases p <;> rfl

theorem result?_answerFetch (place : Nat) (answer : BatchAnswer) (p : Pass) (s : Shared σ) :
    ((answerFetch a clock place answer p).run s).1.result? = p.result? := by
  cases p with
  | fetching f =>
      simp only [answerFetch]
      split <;> rfl
  | _ => rfl

end Pass

/-! ## A whole pass -/

/-- A pass on its way, with what it shares and a record, which nothing reads, of the answers that it delivered. -/
structure Course (σ : Type) where
  pass : Pass := .opening
  shared : Shared σ
  sent : List Answered := []

namespace Course

inductive Move (σ : Type) where
  | step (clock : Clock) (cancelled : Bool)
  | answerTip (clock : Clock) (answer : Except RpcError UInt64)
  | answerFetch (clock : Clock) (place : Nat) (answer : BatchAnswer)
  /-- The updater or another worker does something. -/
  | meanwhile (change : Shared σ → Shared σ)

variable {σ : Type} [LockService σ] {a : Assignment} {clock : Clock} {cancelled : Bool}

def step (a : Assignment) (clock : Clock) (cancelled : Bool) (s : Course σ) : Course σ :=
  match s.pass.step a clock cancelled with
  | none => s
  | some act => ⟨(act.run s.shared).1, (act.run s.shared).2, s.sent ++ s.pass.delivery?.toList⟩

def move (a : Assignment) (s : Course σ) : Move σ → Course σ
  | .step clock cancelled => s.step a clock cancelled
  | .answerTip clock answer =>
    { s with
      pass := ((s.pass.answerTip a clock answer).run s.shared).1
      shared := ((s.pass.answerTip a clock answer).run s.shared).2 }
  | .answerFetch clock place answer =>
    { s with
      pass := ((s.pass.answerFetch a clock place answer).run s.shared).1
      shared := ((s.pass.answerFetch a clock place answer).run s.shared).2 }
  | .meanwhile change => { s with shared := change s.shared }

def run (a : Assignment) (s : Course σ) (moves : List (Move σ)) : Course σ := moves.foldl (move a) s

/-- Others take no flag back. -/
def Move.SparesFlags : Move σ → Prop
  | .meanwhile change => ∀ s : Shared σ, s.archiveNeeded <+: (change s).archiveNeeded
  | _ => True

theorem kept_run {s : Course σ} {moves : List (Move σ)} (h : ∀ m ∈ moves, m.SparesFlags) :
    s.shared.archiveNeeded <+: (s.run a moves).shared.archiveNeeded := by
  induction moves generalizing s with
  | nil => exact List.prefix_rfl
  | cons m moves ih =>
    rw [List.forall_mem_cons] at h
    refine List.IsPrefix.trans ?_ (ih h.2)
    cases m with
    | step clock cancelled =>
      rw [move, step]
      split
      · exact List.prefix_rfl
      · rename_i act hact
        exact Pass.keepsFlags_step hact s.shared
    | answerTip clock answer => exact Pass.keepsFlags_answerTip answer s.pass s.shared
    | answerFetch clock place answer => exact Pass.keepsFlags_answerFetch place answer s.pass s.shared
    | meanwhile change => exact h.1 s.shared

/-- The outcomes of all that was delivered. -/
def outcomes (s : Course σ) : List (Outcome UInt64) := s.sent.flatMap fun r => Delivery.outcomesOf r.1 r.2

/-- Until it ends, the pass has collected what it sent off. -/
def Collected (s : Course σ) : Prop := s.pass.result? = none → s.pass.outcomes = s.outcomes

theorem Collected.step {s : Course σ} (h : s.Collected) (a : Assignment) (clock : Clock) (cancelled : Bool) :
    (s.step a clock cancelled).Collected := by
  unfold Course.step
  cases hact : Pass.step (σ := σ) a clock cancelled s.pass with
  | none => exact h
  | some act =>
    intro hopen
    have hbefore : s.pass.result? = none := Pass.result?_of_step hact
    rcases Pass.outcomes_step s.shared hact with ⟨-, hcollected⟩ | ⟨-, -, -, hended⟩
    · simp [hcollected, h hbefore, outcomes]
    · simp [hopen] at hended

theorem collected_run {s : Course σ} (h : s.Collected) (moves : List (Move σ)) : (s.run a moves).Collected := by
  induction moves generalizing s with
  | nil => exact h
  | cons m moves ih =>
    apply ih
    cases m with
    | step clock cancelled => exact h.step a clock cancelled
    | answerTip clock answer =>
      intro hopen
      rw [move, Pass.result?_answerTip] at hopen
      exact (Pass.imported_answerTip a clock answer s.pass s.shared).2.trans (h hopen)
    | answerFetch clock place answer =>
      intro hopen
      rw [move, Pass.result?_answerFetch] at hopen
      exact (Pass.imported_answerFetch a clock place answer s.pass s.shared).2.trans (h hopen)
    | meanwhile change => exact h

/-- When a pass that went well ends, it has counted what it sent off, and this much is imported. -/
theorem summary_run {s : Course σ} (h : s.Collected) {summary : Summary} (hopen : s.pass.result? = none)
    (hend : (s.step a clock cancelled).pass.result? = some (.ok summary)) :
    summary.covered = (s.outcomes.filter (·.success)).length ∧
      summary.failed = (s.outcomes.filter (!·.success)).length ∧
      summary.covered + summary.failed = s.outcomes.length ∧
      (s.step a clock cancelled).outcomes = s.outcomes ∧
      ∀ key, (s.step a clock cancelled).shared.lastImported.get? key = ((s.shared.lastImported.get? key).toList ++
        (Outcome.succeededFor key s.outcomes).map (·.last)).max? := by
  have hcollected := h hopen
  unfold step at hend ⊢
  cases hact : Pass.step (σ := σ) a clock cancelled s.pass with
  | none =>
    rw [hact, hopen] at hend
    cases hend
  | some act =>
    rw [hact] at hend
    obtain ⟨hnone, hcovered, hfailed, hnewest⟩ := Pass.summary_of_step s.shared hact hend
    rw [hcollected] at hcovered hfailed hnewest
    refine ⟨hcovered, hfailed, ?_, ?_, ?_⟩
    · rw [hcovered, hfailed, ← List.length_eq_length_filter_add]
    · simp [outcomes, hnone]
    · intro key
      rw [hnewest, Pass.get?_newest]

end Course

/-- The delivery of a batch sends off one outcome for each range that it serves, and nothing else does; the pass sums
them up when it ends. -/
theorem Pass.one_outcome_per_range {σ : Type} [LockService σ] (a : Assignment) :
    (∀ (batch : List (Query Entity UInt64)) (answer : BatchAnswer) (s : Shared σ),
      ((deliver a batch answer).run s).1 = Delivery.servedOutcomes batch answer ∧
        s.Sent a batch answer ((deliver a batch answer).run s).2) ∧
    (∀ (p : Pass) (clock : Clock) (cancelled : Bool) (act : Act σ Pass) (s : Shared σ),
      step a clock cancelled p = some act →
        (∃ batch answer, p.Returned batch answer ∧ p.delivery? = some (batch, answer) ∧
          s.Sent a batch answer (act.run s).2) ∨
        (p.delivery? = none ∧ s.Silent (act.run s).2)) ∧
    ∀ (shared : Shared σ) (moves : List (Course.Move σ)),
      let s := Course.run a ⟨.opening, shared, []⟩ moves
      ((∀ m ∈ moves, m.SparesFlags) → shared.archiveNeeded <+: s.shared.archiveNeeded) ∧
      ∀ clock cancelled summary, s.pass.result? = none →
        (s.step a clock cancelled).pass.result? = some (.ok summary) →
          summary.covered = (s.outcomes.filter (·.success)).length ∧
          summary.failed = (s.outcomes.filter (!·.success)).length ∧
          summary.covered + summary.failed = s.outcomes.length ∧
          (s.step a clock cancelled).outcomes = s.outcomes ∧
          ∀ key, (s.step a clock cancelled).shared.lastImported.get? key =
            ((s.shared.lastImported.get? key).toList ++ (Outcome.succeededFor key s.outcomes).map (·.last)).max? := by
  refine ⟨sent_deliver a, ?_, ?_⟩
  · intro p clock cancelled act s h
    refine (sent_step s h).imp_left ?_
    rintro ⟨batch, answer, hdelivery, hsent⟩
    exact ⟨batch, answer, returned_of_delivery? hdelivery, hdelivery, hsent⟩
  · intro shared moves s
    have hcollected : s.Collected := Course.collected_run (fun _ => rfl) moves
    exact ⟨Course.kept_run (s := ⟨.opening, shared, []⟩), fun clock cancelled summary => Course.summary_run hcollected⟩

/-- A pass over one pool until its only batch is answered. -/
def Course.youngPoolMoves (answer : BatchAnswer) : List (Course.Move Locks) :=
  [.step Feed.youngPoolClock false, .step Feed.youngPoolClock false, .answerTip Feed.youngPoolClock (.ok 6),
    .step Feed.youngPoolClock false, .step Feed.youngPoolClock false, .step Feed.youngPoolClock false,
    .answerFetch Feed.youngPoolClock 0 answer]

/-- The pool has to move to another provider when the history is missing; else its blocks are imported. -/
theorem Pass.one_outcome_per_range_youngPool :
    let begun (answer : BatchAnswer) :=
      Course.run Feed.youngPoolAssignment ⟨.opening, Feed.youngPoolShared, []⟩ (Course.youngPoolMoves answer)
    let pruned := begun (.error (.archiveNodeNeeded "fetch" "pruned"))
    let served := Course.run Feed.youngPoolAssignment ⟨.opening, Feed.youngPoolShared, []⟩
      (Course.youngPoolMoves (.ok [.ok ()]) ++ [.step Feed.youngPoolClock false])
    (∃ act batch answer, step Feed.youngPoolAssignment Feed.youngPoolClock false pruned.pass = some act ∧
      pruned.pass.Returned batch answer ∧
      pruned.shared.Sent Feed.youngPoolAssignment batch answer (act.run pruned.shared).2) ∧
    served.outcomes = [⟨"pool", ⟨5, 6⟩, true⟩] ∧
    (served.step Feed.youngPoolAssignment Feed.youngPoolClock false).shared.lastImported.get? "pool" = some 6 := by
  intro begun pruned served
  obtain ⟨-, hstep, hcourse⟩ := one_outcome_per_range (σ := Locks) Feed.youngPoolAssignment
  constructor
  · have hsome : (step (σ := Locks) Feed.youngPoolAssignment Feed.youngPoolClock false pruned.pass).isSome = true := by
      decide +kernel
    have hdelivery : pruned.pass.delivery?.isSome = true := by decide +kernel
    obtain ⟨act, hact⟩ := Option.isSome_iff_exists.1 hsome
    rcases hstep pruned.pass Feed.youngPoolClock false act pruned.shared hact with
      ⟨batch, answer, hreturned, -, hsent⟩ | ⟨hnone, -⟩
    · exact ⟨act, batch, answer, hact, hreturned, hsent⟩
    · rw [hnone] at hdelivery
      cases hdelivery
  · have hopen : served.pass.result? = none := Option.isNone_iff_eq_none.1 (by decide +kernel)
    have houtcomes : served.outcomes = [⟨"pool", ⟨5, 6⟩, true⟩] := by decide +kernel
    have hend : (served.step Feed.youngPoolAssignment Feed.youngPoolClock false).pass.result? =
        some (.ok ⟨1, 1, 1, 1, 0⟩) := by decide +kernel
    have hnew : served.shared.lastImported.get? "pool" = none := by decide +kernel
    obtain ⟨-, -, -, -, himported⟩ := (hcourse Feed.youngPoolShared _).2 Feed.youngPoolClock false _ hopen hend
    refine ⟨houtcomes, ?_⟩
    rw [himported "pool", houtcomes, hnew]
    rfl

end Backfill
