import Backfill.Proofs.Pass.Closing
import Backfill.Proofs.Worker

/-!
# Rounds of a worker

A worker moves while the updater and other workers change what is shared. While no pass is under way, the newest
block that is known as imported for an entity is the newest one of all that the passes delivered for it, and so
not beyond the tips of these passes. The next pass takes everything far enough below that block for imported as
well, which it need not be.
-/

namespace Backfill

/-- A worker with what it shares, and two records that nothing reads: the newest blocks that its passes planned
with, and what they delivered. -/
structure Rounds (σ : Type) where
  worker : Worker
  shared : Shared σ
  tips : List UInt64 := []
  delivered : List Answered := []

namespace Rounds

inductive Move (σ : Type) where
  | step (clock : Clock)
  | answerTip (clock : Clock) (answer : Except RpcError UInt64)
  | answerFetch (clock : Clock) (place : Nat) (answer : BatchAnswer)
  | stop
  /-- The updater or another worker does something. -/
  | meanwhile (change : Shared σ → Shared σ)

variable {σ : Type}

def start (a : Assignment) (timer : Nat) (shared : Shared σ) : Rounds σ := { worker := .start a timer, shared }

def step [LockService σ] (clock : Clock) (s : Rounds σ) : Rounds σ :=
  match s.worker.step clock with
  | none => s
  | some act =>
    { worker := (act.run s.shared).1
      shared := (act.run s.shared).2
      tips := s.tips ++ (s.worker.tip? clock s.shared).toList
      delivered := s.delivered ++ s.worker.delivery?.toList }

def move [LockService σ] (s : Rounds σ) : Move σ → Rounds σ
  | .step clock => s.step clock
  | .answerTip clock answer =>
    { s with
      worker := ((s.worker.answerTip clock answer).run s.shared).1
      shared := ((s.worker.answerTip clock answer).run s.shared).2 }
  | .answerFetch clock place answer =>
    { s with
      worker := ((s.worker.answerFetch clock place answer).run s.shared).1
      shared := ((s.worker.answerFetch clock place answer).run s.shared).2 }
  | .stop => { s with worker := s.worker.stop }
  | .meanwhile change => { s with shared := change s.shared }

def run [LockService σ] (s : Rounds σ) (moves : List (Move σ)) : Rounds σ := moves.foldl move s

/-- Others have no say in the last imports of the worker's entities. -/
def Move.SparesImports (a : Assignment) : Move σ → Prop
  | .meanwhile change => ∀ s : Shared σ, ∀ e ∈ a.entities,
    (change s).lastImported.get? e.importKey = s.lastImported.get? e.importKey
  | _ => True

/-! ## What is known as imported -/

/-- The last imports are those of what was delivered, but for what the pass under way has collected, and what is
planned or delivered ends with some tip at the latest. -/
structure Known (a : Assignment) (s : Rounds σ) : Prop where
  assignment : s.worker.assignment = a
  imported : ∃ closed, (s.delivered.flatMap fun r => Delivery.outcomesOf r.1 r.2) = closed ++ s.worker.outcomes ∧
    ∀ e ∈ a.entities, ∀ n, (∀ block ∈ s.shared.lastImported.get? e.importKey, block.toNat ≤ n) ↔
      ∀ r ∈ Outcome.succeededFor e.importKey closed, r.last.toNat ≤ n
  planned : ∀ batch ∈ s.worker.batches, ∃ tip ∈ s.tips, ∀ q ∈ batch, q.EndsBy tip
  delivered : ∀ r ∈ s.delivered, ∃ tip ∈ s.tips, ∀ q ∈ r.1, q.EndsBy tip

theorem known_start {a : Assignment} (timer : Nat) {shared : Shared σ}
    (h : ∀ e ∈ a.entities, shared.lastImported.get? e.importKey = none) : Known a (start a timer shared) where
  assignment := rfl
  imported := by
    refine ⟨[], rfl, fun e he n => ?_⟩
    simp [start, h e he, Outcome.succeededFor]
  planned _ hb := by cases hb
  delivered _ hr := by cases hr

theorem Known.worked {a : Assignment} {s : Rounds σ} (h : Known a s) {tip : Option UInt64} {sent : List Answered}
    {w : Worker} {shared : Shared σ} (hw : s.worker.Worked tip sent s.shared w shared) :
    Known a ⟨w, shared, s.tips ++ tip.toList, s.delivered ++ sent⟩ where
  assignment := hw.assignment.trans h.assignment
  imported := by
    obtain ⟨closed, hall, hknown⟩ := h.imported
    rw [List.flatMap_append, hall]
    rcases hw.outcomes with ⟨hsame, hcollected⟩ | ⟨rfl, hnewest, hnone⟩
    · refine ⟨closed, ?_, fun e he n => ?_⟩
      · rw [hcollected, List.append_assoc]
      · rw [hsame]
        exact hknown e he n
    · -- the pass ends, and what it collected joins what is known
      refine ⟨closed ++ s.worker.outcomes, ?_, fun e he n => ?_⟩
      · rw [hnone]
        rfl
      · rw [hnewest, Pass.newest_le_iff, hknown e he n, Outcome.succeededFor_append, List.forall_mem_append]
  planned batch hb := by
    rcases hw.batches batch hb with hb | ⟨latest, hlatest, hq⟩
    · obtain ⟨t, ht, hq⟩ := h.planned batch hb
      exact ⟨t, List.mem_append_left _ ht, hq⟩
    · exact ⟨latest, List.mem_append_right _ (Option.mem_toList.2 hlatest), hq⟩
  delivered r hr := by
    rcases List.mem_append.1 hr with hr | hr
    · obtain ⟨t, ht, hq⟩ := h.delivered r hr
      exact ⟨t, List.mem_append_left _ ht, hq⟩
    · obtain ⟨t, ht, hq⟩ := h.planned r.1 (hw.sent r hr)
      exact ⟨t, List.mem_append_left _ ht, hq⟩

theorem Known.idle {a : Assignment} {s : Rounds σ} {w : Worker} {shared : Shared σ}
    (h : Known a ⟨w, shared, s.tips ++ (none : Option UInt64).toList, s.delivered ++ []⟩) :
    Known a { s with worker := w, shared } := by
  rwa [Option.toList_none, List.append_nil, List.append_nil] at h

theorem Known.move [LockService σ] {a : Assignment} {s : Rounds σ} (h : Known a s) {m : Move σ}
    (hm : m.SparesImports a) : Known a (s.move m) := by
  cases m with
  | step clock =>
      rw [Rounds.move, step]
      split
      · exact h
      · rename_i act hact
        exact h.worked (Worker.worked_step s.shared hact)
  | answerTip clock answer => exact (h.worked (Worker.worked_answerTip s.shared answer)).idle
  | answerFetch clock place answer => exact (h.worked (Worker.worked_answerFetch s.shared place answer)).idle
  | stop => exact ⟨h.assignment, h.imported, h.planned, h.delivered⟩
  | meanwhile change =>
      obtain ⟨closed, hall, hknown⟩ := h.imported
      refine ⟨h.assignment, ⟨closed, hall, fun e he n => ?_⟩, h.planned, h.delivered⟩
      rw [← hknown e he n]
      exact iff_of_eq (by rw [Rounds.move, hm s.shared e he])

theorem Known.run [LockService σ] {a : Assignment} {s : Rounds σ} (h : Known a s) {moves : List (Move σ)}
    (hm : ∀ m ∈ moves, m.SparesImports a) : Known a (s.run moves) := by
  induction moves generalizing s with
  | nil => exact h
  | cons m moves ih =>
      obtain ⟨hfirst, hrest⟩ := List.forall_mem_cons.1 hm
      exact ih (h.move hfirst) hrest

/-- Between passes everything that was delivered is known. -/
theorem Known.last_import_le_iff {a : Assignment} {s : Rounds σ} (h : Known a s) (hpause : s.worker.pass? = none)
    {e : Entity} (he : e ∈ a.entities) (n : Nat) :
    (∀ block ∈ s.shared.lastImported.get? e.importKey, block.toNat ≤ n) ↔
      ∀ d ∈ s.delivered, ∀ r ∈ Outcome.succeededFor e.importKey (Delivery.outcomesOf d.1 d.2), r.last.toNat ≤ n := by
  obtain ⟨closed, hall, hknown⟩ := h.imported
  rw [Worker.outcomes_of_pass?_eq_none hpause, List.append_nil] at hall
  rw [hknown e he n, ← hall]
  simp only [Outcome.mem_succeededFor, List.mem_flatMap]
  constructor
  · exact fun hle d hd r hr => hle r ⟨d, hd, hr⟩
  · rintro hle r ⟨d, hd, hr⟩
    exact hle d hd r hr

theorem Known.last_import_le_tip {a : Assignment} {s : Rounds σ} (h : Known a s) (hpause : s.worker.pass? = none)
    {e : Entity} (he : e ∈ a.entities) {latest : UInt64} (hlatest : ∀ tip ∈ s.tips, tip ≤ latest) :
    ∀ block ∈ s.shared.lastImported.get? e.importKey, block.toNat ≤ latest.toNat := by
  refine (h.last_import_le_iff hpause he latest.toNat).2 fun d hd r hr => ?_
  obtain ⟨tip, htip, hends⟩ := h.delivered d hd
  obtain ⟨results, -, -, i, q, hq, -, p, hp, -, hr⟩ := Delivery.mem_succeededFor_outcomesOf.1 hr
  exact (hends q (List.mem_of_getElem? hq) p hp r hr).trans (UInt64.le_iff_toNat_le.1 (hlatest tip htip))

/-- With tips that never go back, what the next pass of a worker that minds only the newest window considers is
what it would consider without knowing of any last import, but for the blocks that lie more than the wait below
one that was imported for the entity. It makes no difference whether these are covered. -/
theorem next_pass_considers_iff [LockService σ] {a : Assignment} {timer : Nat} {shared : Shared σ}
    (hmode : a.setup.behaviour.mode = .recent)
    (hfirst : ∀ e ∈ a.entities, shared.lastImported.get? e.importKey = none) {moves : List (Move σ)}
    (hmoves : ∀ m ∈ moves, m.SparesImports a) (hpause : ((start a timer shared).run moves).worker.pass? = none)
    {latest : UInt64} (hlatest : ∀ tip ∈ ((start a timer shared).run moves).tips, tip ≤ latest) {e : Entity}
    (he : e ∈ a.entities) (state : Option ImportState) :
    ∃ next whole,
      Plan.planInput (a.passContext latest)
        (((start a timer shared).run moves).shared.lastImported.get? e.importKey) e state = .ok next ∧
      Plan.planInput (a.passContext latest) none e state = .ok whole ∧
      ∀ x, x ∈ next.full ↔ x ∈ whole.full ∧ ∀ d ∈ ((start a timer shared).run moves).delivered,
        ∀ r ∈ Outcome.succeededFor e.importKey (Delivery.outcomesOf d.1 d.2),
          r.last.toNat ≤ x.toNat + a.setup.behaviour.wait.toNat := by
  have hknown := (known_start timer hfirst).run hmoves
  have htip := hknown.last_import_le_tip hpause he hlatest
  refine ⟨_, _, Plan.planInput_recent hmode e state, Plan.planInput_recent hmode e state, fun x => ?_⟩
  refine Plan.mem_full_forced_iff ?_
  rw [← hknown.last_import_le_iff hpause he]
  exact Plan.mem_recentWindow_iff htip

/-- One contract on a chain that takes a day for a block. -/
def slowPool : Assignment where
  setup := ⟨⟨"chain", Plan.msPerDay, 0⟩, [], { mode := .recent, repeatEvery := some 1 }, {}, {}, {}, {}⟩
  endpoint := ⟨⟨"http".toList, [], some "node".toList, none, .segments [], none, none⟩, { minDelay := .noLimit }⟩
  costs := []
  entities := [Plan.youngPool]

/-- A pass with block 100 as the newest one imports all that it asks for, and the updater fails to store it. -/
def lostFlush : List (Move Locks) :=
  [.step Feed.youngPoolClock, .step Feed.youngPoolClock, .step Feed.youngPoolClock,
    .answerTip Feed.youngPoolClock (.ok 100), .step Feed.youngPoolClock, .step Feed.youngPoolClock,
    .step Feed.youngPoolClock, .answerFetch Feed.youngPoolClock 0 (.ok [.ok ()]), .step Feed.youngPoolClock,
    .step Feed.youngPoolClock, .step Feed.youngPoolClock, .meanwhile fun s => { s with outbox := [] }]

theorem sparesImports_lostFlush : ∀ m ∈ lostFlush, m.SparesImports slowPool := by
  simp [lostFlush, Move.SparesImports]

theorem paused_lostFlush : ((start slowPool 0 Feed.youngPoolShared).run lostFlush).worker.pass? = none := by
  rw [← Option.isNone_iff_eq_none]
  decide +kernel

theorem tips_lostFlush : ((start slowPool 0 Feed.youngPoolShared).run lostFlush).tips = [100] := by decide +kernel

/-- Block 100 is considered again, and block 99, which is not covered either, is not. -/
theorem next_pass_considers_iff_lostFlush :
    ∃ next, Plan.planInput (slowPool.passContext 100)
        (((start slowPool 0 Feed.youngPoolShared).run lostFlush).shared.lastImported.get? "pool") Plan.youngPool none =
      .ok next ∧ 100 ∈ next.full ∧ 99 ∉ next.full := by
  have hfirst : ∀ e ∈ slowPool.entities, Feed.youngPoolShared.lastImported.get? e.importKey = none := fun _ _ => rfl
  have hlatest : ∀ tip ∈ ((start slowPool 0 Feed.youngPoolShared).run lostFlush).tips, tip ≤ 100 := by
    simp [tips_lostFlush]
  have hdelivered : (((start slowPool 0 Feed.youngPoolShared).run lostFlush).delivered.flatMap fun d =>
      Outcome.succeededFor "pool" (Delivery.outcomesOf d.1 d.2)) = [⟨99, 100⟩] := by decide +kernel
  obtain ⟨next, whole, hnext, hwhole, hiff⟩ := next_pass_considers_iff rfl hfirst sparesImports_lostFlush
    paused_lostFlush hlatest (List.mem_singleton_self Plan.youngPool) none
  rw [Plan.planInput_recent rfl] at hwhole
  cases hwhole
  refine ⟨next, hnext, (hiff 100).2 ⟨Range.contains_iff_mem.1 (by decide +kernel), fun d hd r hr => ?_⟩, fun h => ?_⟩
  · obtain rfl := List.mem_singleton.1 (hdelivered ▸ List.mem_flatMap.2 ⟨d, hd, hr⟩)
    decide
  · obtain ⟨d, hd, hr⟩ := List.mem_flatMap.1 (hdelivered.symm ▸ List.mem_singleton_self (⟨99, 100⟩ : Range UInt64))
    exact absurd (((hiff 99).1 h).2 d hd ⟨99, 100⟩ hr) (by decide)

/-- The shortcut hides a block that was not persisted: the window without it holds block 99, which is not covered,
and the window with it does not. -/
theorem last_import_hides_lost_block :
    ((start slowPool 0 Feed.youngPoolShared).run lostFlush).worker.pass? = none ∧
    ((start slowPool 0 Feed.youngPoolShared).run lostFlush).tips = [100] ∧
    99 ∈ Plan.recentWindow (slowPool.passContext 100) none ∧
    99 ∉ Range.values (((start slowPool 0 Feed.youngPoolShared).run lostFlush).shared.store.covered "pool") ∧
    99 ∉ Plan.recentWindow (slowPool.passContext 100)
      (((start slowPool 0 Feed.youngPoolShared).run lostFlush).shared.lastImported.get? "pool") := by
  have hlast : ((start slowPool 0 Feed.youngPoolShared).run lostFlush).shared.lastImported.get? "pool" = some 100 := by
    decide +kernel
  have hcovered : ((start slowPool 0 Feed.youngPoolShared).run lostFlush).shared.store.covered "pool" = [] := by
    decide +kernel
  rw [hlast, hcovered]
  refine ⟨paused_lostFlush, tips_lostFlush, ?_, by simp, fun h => ?_⟩
  · exact Range.contains_iff_mem.1 (by decide +kernel)
  · exact absurd (Range.contains_iff_mem.2 h) (by decide +kernel)

end Rounds

end Backfill
