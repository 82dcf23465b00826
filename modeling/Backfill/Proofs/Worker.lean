import Backfill.Worker
import Backfill.Proofs.Pass.Feed
import Backfill.Proofs.Pass.Imported
import Backfill.Proofs.Plan.Recent

/-!
# What a worker's last import hides

A worker runs pass after pass while others change what is shared. Once no pass is under way, the newest blocks
that are known to be imported are those of what the passes delivered, and none lies beyond the tips that the
passes were planned with.
-/

namespace Backfill

namespace Worker

variable {σ : Type} {w : Worker} {clock : Clock}

def pass? (w : Worker) : Option Pass :=
  match w.stage with
  | .passing _ pass => some pass
  | _ => none

/-- What the pass under way has collected. -/
def outcomes (w : Worker) : List (Outcome UInt64) := w.pass?.elim [] Pass.outcomes

/-- What the pass under way has not delivered yet. -/
def batches (w : Worker) : List (List (Query Entity UInt64)) := w.pass?.elim [] Pass.batches

theorem outcomes_of_pass?_eq_none (h : w.pass? = none) : w.outcomes = [] := by
  rw [outcomes, h]
  rfl

theorem batches_of_pass?_eq_none (h : w.pass? = none) : w.batches = [] := by
  rw [batches, h]
  rfl

/-- What the next step delivers. -/
def delivery? (w : Worker) : Option Answered := w.pass?.bind Pass.delivery?

/-- The newest block, when the next step plans with it. -/
def tip? (clock : Clock) (s : Shared σ) (w : Worker) : Option UInt64 := w.pass?.bind (Pass.tip? w.assignment clock s)

/-- The worker got on: it may have planned with a newest block, delivered batches, or ended a pass. -/
structure Worked (tip : Option UInt64) (sent : List Answered) (w : Worker) (s : Shared σ) (w' : Worker)
    (s' : Shared σ) : Prop where
  assignment : w'.assignment = w.assignment
  outcomes : (s'.lastImported = s.lastImported ∧
      w'.outcomes = w.outcomes ++ sent.flatMap fun r => Delivery.outcomesOf r.1 r.2) ∨
    (sent = [] ∧ s'.lastImported = Pass.newest s.lastImported w.outcomes ∧ w'.outcomes = [])
  batches : ∀ batch ∈ w'.batches, batch ∈ w.batches ∨ ∃ latest ∈ tip, ∀ q ∈ batch, q.EndsBy latest
  sent : ∀ r ∈ sent, r.1 ∈ w.batches

/-- Nothing of the sort happened. -/
theorem Worked.idle {w' : Worker} {s s' : Shared σ} {sent : List Answered} (tip : Option UInt64) (hsent : sent = [])
    (ha : w'.assignment = w.assignment) (hs : s'.lastImported = s.lastImported) (ho : w'.outcomes = w.outcomes)
    (hb : ∀ batch ∈ w'.batches, batch ∈ w.batches) : Worked tip sent w s w' s' where
  assignment := ha
  outcomes := by
    rw [hsent]
    exact Or.inl ⟨hs, ho.trans (List.append_nil _).symm⟩
  batches batch h := Or.inl (hb batch h)
  sent r h := by
    rw [hsent] at h
    cases h

theorem pass?_of_afterPass (timer began : Nat) (result : Except IndexerError Summary) :
    ({ w with stage := (w.afterPass timer began result).1 } : Worker).pass? = none := by
  cases hrepeat : w.assignment.setup.behaviour.repeatEvery <;> cases result with
  | ok summary => simp [afterPass, pass?, hrepeat]
  | error e => cases e <;> simp [afterPass, pass?, hrepeat]

theorem worked_step [LockService σ] (s : Shared σ) {act : Act σ Worker} (h : w.step clock = some act) :
    Worked (w.tip? clock s) w.delivery?.toList w s (act.run s).1 (act.run s).2 := by
  obtain ⟨inner, hinner, rfl⟩ := Option.map_eq_some_iff.1 h
  obtain ⟨a, stage, stopping⟩ := w
  cases stage with
  | ended result => cases hinner
  | pausing wake =>
      simp only [step?] at hinner
      split at hinner
      · cases hinner
        exact .idle _ rfl rfl rfl rfl fun _ hb => hb
      · split at hinner
        · cases hinner
          exact .idle _ rfl rfl rfl rfl fun _ hb => hb
        · cases hinner
  | passing began pass =>
      simp only [step?] at hinner
      split at hinner
      · rename_i result hresult
        cases hinner
        have hfinished : pass = .finished result := by
          cases pass <;> simp_all [Pass.result?]
        subst hfinished
        have hnone := pass?_of_afterPass (w := ⟨a, .passing began (.finished result), stopping⟩) clock.timer began result
        refine .idle _ rfl rfl rfl (outcomes_of_pass?_eq_none hnone) fun batch hb => ?_
        exact absurd hb (List.eq_nil_iff_forall_not_mem.1 (batches_of_pass?_eq_none hnone) batch)
      · obtain ⟨act, hact, rfl⟩ := Option.map_eq_some_iff.1 hinner
        -- entries are written aside, which no step takes notice of
        have houtcomes := Pass.outcomes_step { s with log := #[] } hact
        refine ⟨rfl, ?_, fun batch hb => ?_, fun r hr => ?_⟩
        · exact houtcomes.imp_right fun ⟨hnone, hnewest, hempty, _⟩ => ⟨congrArg Option.toList hnone, hnewest, hempty⟩
        · exact Pass.batches_step { s with log := #[] } hact hb
        · exact Pass.mem_batches_of_delivery? (Option.mem_toList.1 hr)

theorem worked_answerTip (s : Shared σ) (answer : Except RpcError UInt64) :
    Worked none [] w s ((w.answerTip (σ := σ) clock answer).run s).1 ((w.answerTip clock answer).run s).2 := by
  obtain ⟨a, stage, stopping⟩ := w
  cases stage with
  | passing began pass =>
      obtain ⟨hsame, hcollected⟩ := Pass.imported_answerTip a clock answer pass { s with log := #[] }
      exact .idle _ rfl rfl hsame hcollected (Pass.answerTip_run a clock answer pass { s with log := #[] }).2.batches
  | pausing wake => exact .idle _ rfl rfl rfl rfl fun _ hb => hb
  | ended result => exact .idle _ rfl rfl rfl rfl fun _ hb => hb

theorem worked_answerFetch (s : Shared σ) (place : Nat) (answer : BatchAnswer) :
    Worked none [] w s ((w.answerFetch (σ := σ) clock place answer).run s).1
      ((w.answerFetch clock place answer).run s).2 := by
  obtain ⟨a, stage, stopping⟩ := w
  cases stage with
  | passing began pass =>
      obtain ⟨hsame, hcollected⟩ := Pass.imported_answerFetch a clock place answer pass { s with log := #[] }
      exact .idle _ rfl rfl hsame hcollected
        (Pass.answerFetch_run a clock place answer pass { s with log := #[] }).2.1
  | pausing wake => exact .idle _ rfl rfl rfl rfl fun _ hb => hb
  | ended result => exact .idle _ rfl rfl rfl rfl fun _ hb => hb

end Worker

end Backfill
