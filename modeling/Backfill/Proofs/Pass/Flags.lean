import Backfill.Proofs.Pass
import Backfill.Worker

/-!
# Keys stay flagged

Once a key needs a provider with the full history, no step of a pass or of a worker forgets about it: the
delivery of a batch adds keys at the end, and everything else leaves them alone.
-/

namespace Backfill

namespace Shared

variable {σ β γ : Type}

/-- The step keeps the keys that are flagged, in their order before new ones. -/
def KeepsFlags (act : Act σ β) : Prop := ∀ s, s.archiveNeeded <+: (act.run s).2.archiveNeeded

theorem keepsFlags_pure (x : β) : KeepsFlags (pure x : Act σ β) := fun _ => List.prefix_rfl

theorem KeepsFlags.bind {act : Act σ β} {f : β → Act σ γ} (h : KeepsFlags act) (hf : ∀ x, KeepsFlags (f x)) :
    KeepsFlags (act >>= f) := by
  intro s
  exact (h s).trans (hf (act.run s).1 (act.run s).2)

theorem keepsFlags_get : KeepsFlags (get : Act σ (Shared σ)) := fun _ => List.prefix_rfl

theorem keepsFlags_modify {f : Shared σ → Shared σ} (h : ∀ s, (f s).archiveNeeded = s.archiveNeeded) :
    KeepsFlags (modify f : Act σ PUnit) := by
  intro s
  exact (h s).symm ▸ List.prefix_rfl

theorem keepsFlags_say (entries : List Log.Entry) : KeepsFlags (say entries : Act σ Unit) :=
  keepsFlags_modify fun _ => rfl

theorem KeepsFlags.within {act : Act σ β} (h : KeepsFlags act) (span : Log.Span) : KeepsFlags (within span act) := by
  intro s
  exact h { s with log := #[] }

end Shared

open Shared (KeepsFlags keepsFlags_pure keepsFlags_get keepsFlags_modify keepsFlags_say)

namespace Pass

variable {σ : Type} {a : Assignment} {clock : Clock} {cancelled : Bool}

theorem keepsFlags_planned (config : Plan.BatchConfig) (latest : UInt64) :
    KeepsFlags (planned a config clock latest : Act σ Pass) := fun _ => List.prefix_rfl

theorem keepsFlags_opened : KeepsFlags (opened a clock : Act σ Pass) := by
  unfold opened
  split
  · exact keepsFlags_pure _
  · split
    · exact keepsFlags_pure _
    · refine keepsFlags_get.bind fun s => (keepsFlags_say _).bind fun _ => ?_
      split
      · exact keepsFlags_planned _ _
      · exact keepsFlags_pure _

theorem keepsFlags_tipKnown (config : Plan.BatchConfig) (r : Except RpcError UInt64) :
    KeepsFlags (tipKnown a config clock r : Act σ Pass) := by
  cases r with
  | error e => exact keepsFlags_pure _
  | ok latest => exact fun _ => List.prefix_rfl

/-- A delivery adds the keys that it flags. -/
theorem keepsFlags_deliver (batch : List (Query Entity UInt64)) (answer : BatchAnswer) :
    KeepsFlags (deliver a batch answer : Act σ (List (Outcome UInt64))) := fun _ => List.prefix_append ..

theorem keepsFlags_stepCall [LockService σ] {β : Type} (t : CallTerms) (c : PacedCall β) :
    KeepsFlags (Shared.stepCall t clock c : Act σ (PacedCall β)) := fun _ => List.prefix_rfl

theorem keepsFlags_answerCall {β : Type} (t : CallTerms) (answer : Except RpcError β) (c : PacedCall β) :
    KeepsFlags (Shared.answerCall t clock answer c : Act σ (PacedCall β)) := fun _ => List.prefix_rfl

theorem keepsFlags_step [LockService σ] {p : Pass} {act : Act σ Pass} (h : step a clock cancelled p = some act) :
    KeepsFlags act := by
  cases p with
  | opening =>
      cases h
      exact keepsFlags_opened
  | tip config call =>
      simp only [step] at h
      split at h
      · cases h
        exact keepsFlags_tipKnown config _
      · split at h
        · cases h
          exact (keepsFlags_stepCall _ call).bind fun _ => keepsFlags_pure _
        · cases h
  | fetching f =>
      cases fetchStep_of_step h with
      | deliver before after flight r => exact (keepsFlags_deliver _ r).bind fun _ => keepsFlags_pure _
      | begin => exact keepsFlags_pure _
      | call before after flight => exact (keepsFlags_stepCall _ flight.call).bind fun _ => keepsFlags_pure _
      | close => exact fun _ => List.prefix_rfl
  | finished result => cases h

theorem keepsFlags_answerTip (answer : Except RpcError UInt64) (p : Pass) :
    KeepsFlags (answerTip a clock answer p : Act σ Pass) := by
  cases p with
  | tip config call => exact (keepsFlags_answerCall _ answer call).bind fun _ => keepsFlags_pure _
  | opening => exact keepsFlags_pure _
  | fetching f => exact keepsFlags_pure _
  | finished result => exact keepsFlags_pure _

theorem keepsFlags_answerFetch (place : Nat) (answer : BatchAnswer) (p : Pass) :
    KeepsFlags (answerFetch a clock place answer p : Act σ Pass) := by
  cases p with
  | fetching f =>
      simp only [answerFetch]
      split
      · exact keepsFlags_pure _
      · exact (keepsFlags_answerCall _ answer _).bind fun _ => keepsFlags_pure _
  | opening => exact keepsFlags_pure _
  | tip config call => exact keepsFlags_pure _
  | finished result => exact keepsFlags_pure _

end Pass

namespace Worker

variable {σ : Type} {clock : Clock}

theorem keepsFlags_step [LockService σ] {w : Worker} {act : Act σ Worker} (h : w.step clock = some act) :
    KeepsFlags act := by
  obtain ⟨inner, hinner, rfl⟩ := Option.map_eq_some_iff.1 h
  refine KeepsFlags.within ?_ _
  rw [step?] at hinner
  split at hinner
  · cases hinner
  · split at hinner
    · cases hinner
      exact (keepsFlags_say _).bind fun _ => keepsFlags_pure _
    · split at hinner
      · cases hinner
        exact keepsFlags_pure _
      · cases hinner
  · split at hinner
    · cases hinner
      exact (keepsFlags_say _).bind fun _ => keepsFlags_pure _
    · obtain ⟨act, hact, rfl⟩ := Option.map_eq_some_iff.1 hinner
      exact (Pass.keepsFlags_step hact).bind fun _ => keepsFlags_pure _

theorem keepsFlags_onPass {w : Worker} {f : Pass → Act σ Pass} (h : ∀ p, KeepsFlags (f p)) :
    KeepsFlags (w.onPass f) := by
  rw [onPass]
  split
  · exact ((h _).bind fun _ => keepsFlags_pure _).within _
  · exact keepsFlags_pure _

theorem keepsFlags_answerTip (w : Worker) (answer : Except RpcError UInt64) :
    KeepsFlags (w.answerTip clock answer : Act σ Worker) :=
  keepsFlags_onPass (Pass.keepsFlags_answerTip answer)

theorem keepsFlags_answerFetch (w : Worker) (place : Nat) (answer : BatchAnswer) :
    KeepsFlags (w.answerFetch clock place answer : Act σ Worker) :=
  keepsFlags_onPass (Pass.keepsFlags_answerFetch place answer)

end Worker

end Backfill
