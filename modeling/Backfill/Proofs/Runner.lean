import Backfill.Proofs.Pass.Flags
import Backfill.Proofs.Plan.Window
import Backfill.Proofs.Sharing

/-!
# Polls of a runner

A runner moves with its workers, and others may move the locks in between. Its branches never change, and the
keys that its workers flag stay flagged. So whatever happens between two polls, the later one gives an entity
that was flagged before the earlier one to a provider of the full history, if there is any.
-/

namespace Backfill

open Shared (KeepsFlags keepsFlags_pure keepsFlags_get keepsFlags_modify keepsFlags_say)

namespace Runner

variable {σ : Type} {r : Runner} {clock : Clock}

/-! ## Steps keep branches and flags -/

/-- The step leaves the branches as they are, and what is flagged stays flagged. -/
structure Steady (r : Runner) (act : Act σ Runner) : Prop where
  flags : KeepsFlags act
  sharing : ∀ s, (act.run s).1.sharing = r.sharing

theorem steady_pure {r' : Runner} (h : r'.sharing = r.sharing) : Steady r (pure r' : Act σ Runner) :=
  ⟨keepsFlags_pure r', fun _ => h⟩

theorem Steady.bind {act : Act σ Runner} {f : Runner → Act σ Runner} (h : Steady r act)
    (hf : ∀ r', r'.sharing = r.sharing → Steady r' (f r')) : Steady r (act >>= f) := by
  refine ⟨?_, ?_⟩
  · intro s
    exact (h.flags s).trans ((hf _ (h.sharing s)).flags (act.run s).2)
  · intro s
    exact ((hf _ (h.sharing s)).sharing (act.run s).2).trans (h.sharing s)

/-- Something else may come first. -/
theorem steady_after {β : Type} {act : Act σ β} {f : β → Act σ Runner} (h : KeepsFlags act)
    (hf : ∀ x, Steady r (f x)) : Steady r (act >>= f) := by
  refine ⟨h.bind fun x => (hf x).flags, ?_⟩
  intro s
  exact (hf _).sharing (act.run s).2

theorem Steady.of_sharing_eq {r' : Runner} {act : Act σ Runner} (h : Steady r' act) (heq : r'.sharing = r.sharing) :
    Steady r act :=
  ⟨h.flags, fun s => (h.sharing s).trans heq⟩

theorem Steady.within {act : Act σ Runner} (h : Steady r act) (span : Log.Span) :
    Steady r (Shared.within span act) := by
  refine ⟨h.flags.within span, ?_⟩
  intro s
  exact h.sharing { s with log := #[] }

theorem steady_tellUpdater (event : UpdaterEvent UInt64) (r : Runner) :
    Steady r (r.tellUpdater clock event : Act σ Runner) := ⟨fun _ => List.prefix_rfl, fun _ => rfl⟩

theorem steady_foldlM (outcomes : List (Outcome UInt64)) (r : Runner) :
    Steady r (outcomes.foldlM (fun r o => r.tellUpdater clock (.outcome o)) r : Act σ Runner) := by
  induction outcomes generalizing r with
  | nil => exact steady_pure rfl
  | cons o rest ih =>
      rw [List.foldlM_cons]
      exact (steady_tellUpdater _ r).bind fun r' _ => ih r'

theorem steady_receive (r : Runner) : Steady r (r.receive clock : Act σ Runner) := by
  refine Steady.within ?_ _
  refine steady_after keepsFlags_get fun s => steady_after (keepsFlags_modify fun _ => rfl) fun _ => ?_
  exact steady_foldlM _ r

theorem steady_hire (place : Nat) (share : List Entity) (r : Runner) :
    Steady r (r.hire clock place share : Act σ Runner) := by
  unfold hire
  split
  · exact steady_after (keepsFlags_say _) fun _ => steady_pure rfl
  · exact steady_pure rfl

theorem steady_dismiss (poll place : Nat) (share : List Entity) (rest : List (Nat × List Entity)) (w : Worker)
    (result : Except IndexerError Unit) (r : Runner) :
    Steady r (r.dismiss clock poll place share rest w result : Act σ Runner) := by
  cases result with
  | ok _ => exact (steady_hire place share _).of_sharing_eq rfl
  | error e =>
      refine steady_after (keepsFlags_say _) fun _ => ?_
      cases e with
      | config e => exact steady_pure rfl
      | _ => exact (steady_hire place share _).of_sharing_eq rfl

theorem steady_handing {poll place : Nat} {share : List Entity} {rest : List (Nat × List Entity)}
    (hstage : r.stage = .handing poll ((place, share) :: rest)) {act : Act σ Runner}
    (h : r.stepSelf clock = some act) : Steady r act := by
  simp only [stepSelf, hstage] at h
  split at h
  · cases h
    exact (steady_hire place share _).of_sharing_eq rfl
  · split at h
    · cases h
      exact steady_pure rfl
    · split at h
      · cases h
        exact steady_dismiss poll place share rest _ _ r
      · split at h
        · cases h
        · cases h
          exact steady_pure rfl

theorem steady_stopping {result : Except IndexerError Unit} (hstage : r.stage = .stopping result)
    {act : Act σ Runner} (h : r.stepSelf clock = some act) : Steady r act := by
  simp only [stepSelf, hstage] at h
  split at h
  · split at h
    · cases h
      exact steady_pure rfl
    · cases h
      exact steady_after (keepsFlags_say _) fun _ => steady_pure rfl
    · split at h
      · cases h
      · cases h
        exact steady_pure rfl
  · cases h
    refine (steady_tellUpdater .closed r).bind fun r' _ => ?_
    exact steady_after (keepsFlags_say _) fun _ => steady_pure rfl

theorem steady_stepSelf {act : Act σ Runner} (h : r.stepSelf clock = some act) : Steady r act := by
  cases hstage : r.stage with
  | waiting poll =>
      simp only [stepSelf, hstage] at h
      split at h
      · cases h
        exact steady_pure rfl
      · split at h
        · cases h
          exact steady_pure rfl
        · cases h
  | polling poll =>
      simp only [stepSelf, hstage] at h
      cases h
  | handing poll shares =>
      cases shares with
      | nil =>
          simp only [stepSelf, hstage] at h
          cases h
          exact steady_pure rfl
      | cons first rest => exact steady_handing hstage h
  | stopping result => exact steady_stopping hstage h
  | ended result =>
      simp only [stepSelf, hstage] at h
      cases h

variable [LockService σ]

theorem steady_stepWorkers {act : Act σ Runner} (h : r.stepWorkers clock = some act) : Steady r act := by
  obtain ⟨⟨w, place⟩, -, hact⟩ := List.exists_of_findSome?_eq_some h
  obtain ⟨inner, hinner, rfl⟩ := Option.map_eq_some_iff.1 hact
  obtain ⟨worker, -, hstep⟩ := Option.bind_eq_some_iff.1 hinner
  exact steady_after (Worker.keepsFlags_step hstep) fun w => (steady_receive _).of_sharing_eq rfl

theorem steady_step {act : Act σ Runner} (h : r.step clock = some act) : Steady r act := by
  rw [step] at h
  split at h
  · rename_i self hself
    cases h
    exact (steady_stepSelf hself).within _
  · split at h
    · rename_i workers hworkers
      cases h
      exact steady_stepWorkers hworkers
    · split at h
      · cases h
        exact (steady_tellUpdater _ r).within _
      · cases h

omit [LockService σ] in
theorem steady_answer {f : Worker → Act σ Worker} (hf : ∀ w, KeepsFlags (f w)) (place : Nat) (r : Runner) :
    Steady r (r.answer clock place f) := by
  rw [answer]
  split
  · exact steady_pure rfl
  · exact steady_after (hf _) fun w => (steady_receive _).of_sharing_eq rfl

omit [LockService σ] in
theorem steady_answerEntities (answer : Except String (List Entity)) (r : Runner) :
    Steady r (r.answerEntities answer : Act σ Runner) := by
  rw [answerEntities]
  split
  · refine Steady.within ?_ _
    split
    · exact steady_after (keepsFlags_say _) fun _ => steady_pure rfl
    · exact steady_after (keepsFlags_say _) fun _ => steady_after keepsFlags_get fun _ => steady_pure rfl
  · exact steady_pure rfl

end Runner

/-! ## Runs -/

/-- A runner with what its workers share. -/
structure ChainRun (σ : Type) where
  runner : Runner
  shared : Shared σ

namespace ChainRun

inductive Move (σ : Type) where
  | step (clock : Clock)
  | answerEntities (answer : Except String (List Entity))
  | answerTip (clock : Clock) (place : Nat) (answer : Except RpcError UInt64)
  | answerFetch (clock : Clock) (place batch : Nat) (answer : BatchAnswer)
  | requestShutdown
  /-- Others move the locks. -/
  | meanwhile (gate : Gate σ)

variable {σ : Type}

def perform (s : ChainRun σ) (act : Act σ Runner) : ChainRun σ := ⟨(act.run s.shared).1, (act.run s.shared).2⟩

variable [LockService σ]

def move (s : ChainRun σ) : Move σ → ChainRun σ
  | .step clock => (s.runner.step clock).elim s s.perform
  | .answerEntities answer => s.perform (s.runner.answerEntities answer)
  | .answerTip clock place answer => s.perform (s.runner.answer clock place (Worker.answerTip clock answer))
  | .answerFetch clock place batch answer =>
    s.perform (s.runner.answer clock place (Worker.answerFetch clock batch answer))
  | .requestShutdown => { s with runner := s.runner.requestShutdown }
  | .meanwhile gate => { s with shared := { s.shared with gate } }

def run (s : ChainRun σ) (moves : List (Move σ)) : ChainRun σ := moves.foldl move s

/-! ## What later states have kept -/

/-- The branches are the same, and no flag was lost. -/
structure Kept (s s' : ChainRun σ) : Prop where
  sharing : s'.runner.sharing = s.runner.sharing
  flags : s.shared.archiveNeeded <+: s'.shared.archiveNeeded

omit [LockService σ] in
theorem Kept.refl (s : ChainRun σ) : s.Kept s := ⟨rfl, List.prefix_rfl⟩

omit [LockService σ] in
theorem Kept.trans {s s' s'' : ChainRun σ} (h : s.Kept s') (h' : s'.Kept s'') : s.Kept s'' :=
  ⟨h'.sharing.trans h.sharing, h.flags.trans h'.flags⟩

omit [LockService σ] in
theorem kept_perform {s : ChainRun σ} {act : Act σ Runner} (h : s.runner.Steady act) : s.Kept (s.perform act) :=
  ⟨h.sharing s.shared, h.flags s.shared⟩

theorem kept_move (s : ChainRun σ) (m : Move σ) : s.Kept (s.move m) := by
  cases m with
  | step clock =>
      cases hstep : s.runner.step (σ := σ) clock with
      | none =>
          rw [move, hstep]
          exact .refl s
      | some act =>
          rw [move, hstep]
          exact kept_perform (Runner.steady_step hstep)
  | answerEntities answer => exact kept_perform (Runner.steady_answerEntities answer _)
  | answerTip clock place answer =>
      exact kept_perform (Runner.steady_answer (fun w => Worker.keepsFlags_answerTip w answer) place _)
  | answerFetch clock place batch answer =>
      exact kept_perform (Runner.steady_answer (fun w => Worker.keepsFlags_answerFetch w batch answer) place _)
  | requestShutdown => exact ⟨rfl, List.prefix_rfl⟩
  | meanwhile gate => exact ⟨rfl, List.prefix_rfl⟩

theorem kept_run (s : ChainRun σ) (moves : List (Move σ)) : s.Kept (s.run moves) := by
  induction moves generalizing s with
  | nil => exact .refl s
  | cons m moves ih => exact (kept_move s m).trans (ih (s.move m))

/-! ## Polls -/

omit [LockService σ] in
theorem start_run {setup : Setup} {sharing : Sharing} (h : Sharing.ofEndpoints setup.endpoints = .ok sharing)
    (costs : CallCosts) (timer : Nat) (shared : Shared σ) :
    ∃ r shared', (Runner.start setup costs timer).run shared = (.ok r, shared') ∧ r.sharing = sharing := by
  simp only [Runner.start, h]
  by_cases hnone : sharing.archive.isNone = true
  · exact ⟨_, _, by simp [hnone, Shared.within]; rfl, rfl⟩
  · exact ⟨_, _, by simp [hnone, Shared.within]; rfl, rfl⟩

theorem handing_answerEntities {s : ChainRun σ} {poll : Nat} (h : s.runner.stage = .polling poll)
    (entities : List Entity) :
    (s.move (.answerEntities (.ok entities))).runner.stage = .handing poll
      (s.runner.sharing.shares s.shared.archiveNeeded (Sharing.canonical entities)) := by
  simp only [move, perform, Runner.answerEntities, h]
  rfl

/-- Every poll gives each key of its list to one provider, and what was flagged at any time before it to one of
the full history, if there is any. -/
theorem polls_share_out (setup : Setup) (costs : CallCosts) {all : Branches Nat}
    (hall : Branches.ofWeights (Sharing.weigh setup.endpoints.zipIdx) = .ok all) (timer : Nat) (shared : Shared σ) :
    ∃ s : ChainRun σ, (Runner.start setup costs timer).run shared = (.ok s.runner, s.shared) ∧
      (∀ needed entities, s.runner.sharing.SharesOut setup.endpoints needed entities
        (s.runner.sharing.shares needed (Sharing.canonical entities))) ∧
      ∀ before after poll, ((s.run before).run after).runner.stage = .polling poll → ∀ entities, ∃ shares,
        (((s.run before).run after).move (.answerEntities (.ok entities))).runner.stage = .handing poll shares ∧
        s.runner.sharing.SharesOut setup.endpoints ((s.run before).run after).shared.archiveNeeded entities shares ∧
        ((∃ e ∈ setup.endpoints, e.limitations.archive = true) → ∀ p ∈ shares, ∀ e ∈ p.2,
          e.importKey ∈ (s.run before).shared.archiveNeeded →
          ∃ endpoint, setup.endpoints[p.1]? = some endpoint ∧ endpoint.limitations.archive = true) := by
  obtain ⟨sharing, hsharing, hfits⟩ := Sharing.exists_ofEndpoints hall
  obtain ⟨r, shared', hstart, rfl⟩ := start_run hsharing costs timer shared
  refine ⟨⟨r, shared'⟩, hstart, fun needed entities => hfits.sharesOut needed entities, ?_⟩
  intro before after poll hpoll entities
  have hbefore := kept_run ⟨r, shared'⟩ before
  have hafter := kept_run (run ⟨r, shared'⟩ before) after
  have hout := hfits.sharesOut ((run ⟨r, shared'⟩ before).run after).shared.archiveNeeded entities
  have hhanding := handing_answerEntities hpoll entities
  rw [(hbefore.trans hafter).sharing] at hhanding
  refine ⟨_, hhanding, hout, ?_⟩
  intro harchive p hp e he hflag
  exact hout.archived harchive p hp e he (hafter.flags.subset hflag)

/-- Two providers of one weight, the second one with the full history. -/
def twoProviders : Setup where
  chain := ⟨"chain", 12000, 0⟩
  endpoints :=
    [⟨⟨"http".toList, [], some "pruned".toList, none, .segments [], none, none⟩, { minDelay := .noLimit }⟩,
      ⟨⟨"http".toList, [], some "full".toList, none, .segments [], none, none⟩,
        { minDelay := .noLimit, archive := true }⟩]
  behaviour := { mode := .historical }
  shaping := {}
  stream := {}
  retry := {}
  lock := {}

/-- The first of two entities goes to the first provider, unless it is flagged. -/
theorem polls_share_out_twoProviders :
    Branches.ofWeights (Sharing.weigh twoProviders.endpoints.zipIdx) =
      .ok ⟨[(0, ⟨1, 10000⟩), (1, ⟨10001, 20000⟩)], 20000⟩ ∧
    ∃ s : ChainRun Locks, (Runner.start twoProviders [] 0).run { gate := ⟨{}, 0⟩ } = (.ok s.runner, s.shared) ∧
      ∃ p ∈ s.runner.sharing.shares ["pool"] (Sharing.canonical [Plan.youngPool]), Plan.youngPool ∈ p.2 ∧ p.1 = 1 := by
  have hall : Branches.ofWeights (Sharing.weigh twoProviders.endpoints.zipIdx) =
      .ok ⟨[(0, ⟨1, 10000⟩), (1, ⟨10001, 20000⟩)], 20000⟩ := rfl
  obtain ⟨s, hstart, hshares, -⟩ := polls_share_out (σ := Locks) twoProviders [] hall 0 { gate := ⟨{}, 0⟩ }
  have hout := hshares ["pool"] [Plan.youngPool]
  obtain ⟨e, he, hkey⟩ := List.mem_map.1 ((hout.keys "pool").2 (by decide))
  obtain ⟨p, hp, hep⟩ := List.mem_flatMap.1 he
  obtain rfl := List.mem_singleton.1 (hout.polled e he)
  obtain ⟨endpoint, hplace, hlimit⟩ := hout.archived ⟨_, List.mem_cons_of_mem _ List.mem_cons_self, rfl⟩ p hp _ hep
    (List.mem_singleton_self _)
  refine ⟨hall, s, hstart, p, hp, hep, ?_⟩
  obtain ⟨place, share⟩ := p
  match place, hplace with
  | 0, hplace =>
      cases hplace
      cases hlimit
  | 1, _ => rfl

end ChainRun

end Backfill
