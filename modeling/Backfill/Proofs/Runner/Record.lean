import Backfill.Proofs.Runner.Crew
import Backfill.Proofs.Updater.Run

/-!
# Nobody drops out of the record

The runner's table and the list of those it has let go of hold every worker that was ever started: no move takes one
away, whatever becomes of it. What a move adds to the record of merges it has merged into the store.
-/

namespace Backfill

/-! ## What workers bring -/

/-- A step that brings outcomes leaves the pass under way. -/
theorem Pass.fetching_of_step {σ : Type} [LockService σ] {a : Assignment} {clock : Clock} {cancelled : Bool}
    {p : Pass} {act : Act σ Pass} (h : p.step a clock cancelled = some act) (s : Shared σ) :
    (act.run s).2.outbox = s.outbox ∨ ∃ f, (act.run s).1 = .fetching f := by
  cases Pass.stepped s h with
  | quiet hnone hsame hwithin => exact Or.inl hsame.outbox
  | planned now hnone hstore houtbox hplanned hgot => exact Or.inl houtbox
  | delivered batch answer hdelivery hmem hgot hstore houtbox hwithin =>
      right
      cases p with
      | fetching f =>
          cases fetchStep_of_step h with
          | deliver before after flight r hf hr hd => exact ⟨_, rfl⟩
          | begin place batch waiting hnone => exact ⟨_, rfl⟩
          | call before after flight hnone => exact ⟨_, rfl⟩
          | close hnone hempty =>
              rw [hnone] at hdelivery
              cases hdelivery
      | _ => cases hdelivery

namespace Worker

variable {σ : Type} {w : Worker} {clock : Clock}

/-- A move of the worker: if it brings outcomes, it is in a pass afterwards, and it does not come back from the end. -/
structure Moves (w : Worker) (act : Act σ Worker) : Prop where
  assignment : ∀ s, (act.run s).1.assignment = w.assignment
  brings : ∀ s, (act.run s).2.outbox = s.outbox ∨ (act.run s).1.isFetching = true
  ended : w.result?.isSome = true → ∀ s, (act.run s).1.result?.isSome = true

theorem moves_step [LockService σ] {act : Act σ Worker} (h : w.step clock = some act) : Moves w act := by
  obtain ⟨inner, hinner, rfl⟩ := Option.map_eq_some_iff.1 h
  obtain ⟨a, stage, stopping⟩ := w
  cases stage with
  | ended result => cases hinner
  | pausing wake =>
      simp only [step?] at hinner
      split at hinner
      · cases hinner
        exact ⟨fun s => rfl, fun s => Or.inl rfl, nofun⟩
      · split at hinner
        · cases hinner
          exact ⟨fun s => rfl, fun s => Or.inl rfl, nofun⟩
        · cases hinner
  | passing began pass =>
      simp only [step?] at hinner
      split at hinner
      · cases hinner
        exact ⟨fun s => rfl, fun s => Or.inl rfl, nofun⟩
      · obtain ⟨act, hact, rfl⟩ := Option.map_eq_some_iff.1 hinner
        refine ⟨fun s => rfl, fun s => ?_, nofun⟩
        -- entries are written aside, which no step takes notice of
        rcases Pass.fetching_of_step hact { s with log := #[] } with hsame | ⟨f, hf⟩
        · exact Or.inl hsame
        · right
          change (Worker.mk a (.passing began (act.run { s with log := #[] }).1) stopping).isFetching = true
          rw [hf]
          rfl

theorem moves_onPass {f : Pass → Act σ Pass} (hf : ∀ p s, ((f p).run s).2.outbox = s.outbox) (w : Worker) :
    Moves w (w.onPass f) := by
  obtain ⟨a, stage, stopping⟩ := w
  cases stage with
  | passing began pass => exact ⟨fun s => rfl, fun s => Or.inl (hf pass { s with log := #[] }), nofun⟩
  | _ => exact ⟨fun s => rfl, fun s => Or.inl rfl, fun h s => h⟩

theorem moves_answerTip (w : Worker) (answer : Except RpcError UInt64) :
    Moves w (w.answerTip clock answer : Act σ Worker) :=
  moves_onPass (fun p s => (Pass.answerTip_run w.assignment clock answer p s).1.outbox) w

theorem moves_answerFetch (w : Worker) (batch : Nat) (answer : BatchAnswer) :
    Moves w (w.answerFetch clock batch answer : Act σ Worker) :=
  moves_onPass (fun p s => (Pass.answerFetch_run w.assignment clock batch answer p s).1.outbox) w

end Worker

/-! ## Tables -/

def assignmentsOf (workers : List (Option Worker)) : List Assignment := workers.filterMap (·.map (·.assignment))

/-- Whatever one place of the table holds, the others are the same. -/
theorem exists_assignmentsOf_set {workers : List (Option Worker)} {place : Nat} (h : place < workers.length) :
    ∃ before after, ∀ w : Option Worker,
      assignmentsOf (workers.set place w) = before ++ (w.map (·.assignment)).toList ++ after := by
  refine ⟨assignmentsOf (workers.take place), assignmentsOf (workers.drop (place + 1)), fun w => ?_⟩
  rw [List.set_eq_take_append_cons_drop, if_pos h, assignmentsOf, List.filterMap_append]
  cases w <;> simp [assignmentsOf]

/-- What is taken from the first part may be put at the end. -/
theorem subperm_moved {α : Type} {before after taken rest : List α} (h : before.Subperm (after ++ taken)) :
    (before ++ rest).Subperm (after ++ (rest ++ taken)) := by
  refine ((List.subperm_append_right rest).2 h).trans ?_
  rw [List.append_assoc]
  exact (List.perm_append_comm.append_left after).subperm

namespace Runner

variable {r : Runner}

theorem assignmentsOf_replace {place : Nat} {w next : Worker} (hw : r.workerAt? place = some w)
    (hnext : next.assignment = w.assignment) :
    assignmentsOf (r.setWorker place (some next)).workers = assignmentsOf r.workers := by
  obtain ⟨hlt, hget⟩ := List.getElem?_eq_some_iff.1 (workerAt?_eq_some.1 hw)
  obtain ⟨before, after, hset⟩ := exists_assignmentsOf_set hlt
  have hsame := hset (some w)
  rw [← hget, List.set_getElem_self hlt, hget] at hsame
  rw [setWorker, hset, hsame, Option.map_some, Option.map_some, hnext]

/-- Whoever is put aside is not lost to those who keep it. -/
theorem assignmentsOf_setWorker (place : Nat) (seat : Option Worker) :
    (assignmentsOf r.workers).Subperm
      (assignmentsOf (r.setWorker place seat).workers ++ ((r.workerAt? place).map (·.assignment)).toList) := by
  by_cases hlt : place < r.workers.length
  · obtain ⟨before, after, hset⟩ := exists_assignmentsOf_set hlt
    have hsame := hset r.workers[place]
    rw [List.set_getElem_self hlt] at hsame
    have hw : r.workerAt? place = r.workers[place] := by
      rw [workerAt?, List.getElem?_eq_getElem hlt]
      rfl
    rw [setWorker, hset, hsame, hw, List.append_assoc, List.append_assoc, List.append_assoc]
    refine (List.subperm_append_left before).2 (List.perm_append_comm.subperm.trans ?_)
    exact (List.sublist_append_right _ _).subperm
  · have hnone : r.workerAt? place = none := by
      rw [workerAt?, List.getElem?_eq_none (Nat.le_of_not_lt hlt)]
      rfl
    rw [setWorker, List.set_eq_of_length_le (Nat.le_of_not_lt hlt), hnone]
    exact (List.sublist_append_left _ _).subperm

/-- Whom a step of the runner's own takes from the table. -/
theorem Seated.assignmentsOf_subperm {vacated : Option Nat} {workers : List (Option Worker)}
    (h : Seated r vacated workers) : (assignmentsOf r.workers).Subperm
      (assignmentsOf workers ++ ((vacated.bind r.workerAt?).map (·.assignment)).toList) := by
  cases h with
  | kept => exact (List.sublist_append_left _ _).subperm
  | @asked place w hw =>
      have hsame := assignmentsOf_replace hw (show w.stop.assignment = w.assignment from rfl)
      rw [hsame]
      exact (List.sublist_append_left _ _).subperm
  | emptied hdone => exact assignmentsOf_setWorker _ none
  | filled hdone => exact assignmentsOf_setWorker _ _

/-- A runner tells its updater what a run of the updater is told. -/
theorem tellUpdater_run {σ : Type} (clock : Clock) (event : UpdaterEvent UInt64) (r : Runner) (s : Shared σ) :
    let told := ({ updater := r.updater, store := s.store } : UpdaterRun UInt64).tell r.limits (clock, event)
    (r.tellUpdater clock event).run s = ({ r with updater := told.updater },
      { s with store := told.store, log := s.log ++ told.merges.flatMap (·.entries) }) := rfl

end Runner

namespace Crew

variable {σ : Type} {c : Crew σ}

/-! ## Moves -/

/-- The assignments of all workers that were ever started. -/
def assignments (c : Crew σ) : List Assignment := c.workers.map (·.assignment)

theorem assignments_eq (c : Crew σ) :
    c.assignments = assignmentsOf c.runner.workers ++ c.adrift.map (·.assignment) := by
  rw [assignments, workers, List.map_append, List.map_filterMap]
  rfl

theorem adrift_letGo (c : Crew σ) (place : Nat) :
    (c.letGo place).adrift = c.adrift ++ (c.runner.workerAt? place).toList := by
  rw [letGo]
  split
  · rename_i hnone
    rw [hnone, Option.toList_none, List.append_nil]
  · rename_i w hw
    rw [hw, Option.toList_some]

/-- Whom a step of the runner's own takes from the table it lets go of. -/
theorem assignments_own (c : Crew σ) (clock : Clock) : c.assignments.Subperm (c.own clock).assignments := by
  rw [Crew.own]
  split
  · exact .refl _
  · rename_i hlast
    rw [Bool.not_eq_true] at hlast
    split
    · exact .refl _
    · rename_i act hact
      have htable := fun s => (Runner.own_stepSelf hlast hact s).table.assignmentsOf_subperm
      have hadrift : (c.runner.vacates?.elim c c.letGo).adrift =
          c.adrift ++ (c.runner.vacates?.bind c.runner.workerAt?).toList := by
        cases c.runner.vacates? with
        | none => exact (List.append_nil _).symm
        | some place => exact adrift_letGo c place
      rw [assignments_eq, assignments_eq]
      change (assignmentsOf c.runner.workers ++ _).Subperm
        (assignmentsOf (act.run _).1.workers ++ (c.runner.vacates?.elim c c.letGo).adrift.map (·.assignment))
      rw [hadrift, List.map_append]
      rw [← Option.toList_map]
      exact subperm_moved (htable _)

theorem assignments_act (c : Crew σ) (seat : Seat) {f : Worker → Option (Act σ Worker)}
    (hf : ∀ w act, f w = some act → w.Moves act) : (c.act seat f).assignments = c.assignments := by
  rw [Crew.act]
  split
  · rfl
  · rename_i act hact
    obtain ⟨w, hw, hact⟩ := Option.bind_eq_some_iff.1 hact
    have hsame := (hf w act hact).assignment { c.shared with outbox := [] }
    split
    · rfl
    · rw [assignments_eq, assignments_eq]
      cases seat with
      | place place =>
          exact congrArg (· ++ c.adrift.map (·.assignment)) (Runner.assignmentsOf_replace hw hsame)
      | adrift number =>
          refine congrArg (assignmentsOf c.runner.workers ++ ·) ?_
          change (c.adrift.set number _).map (·.assignment) = _
          obtain ⟨hlt, hget⟩ := List.getElem?_eq_some_iff.1 hw
          rw [List.map_set, hsame, ← hget, ← List.map_set, List.set_getElem_self]

theorem assignments_requestShutdown (c : Crew σ) :
    ({ c with runner := c.runner.requestShutdown, adrift := c.adrift.map Worker.stop } : Crew σ).assignments =
      c.assignments := by
  have htable : assignmentsOf c.runner.requestShutdown.workers = assignmentsOf c.runner.workers := by
    rw [Runner.requestShutdown, assignmentsOf, List.filterMap_map]
    refine List.filterMap_congr fun w _ => ?_
    cases w <;> rfl
  rw [assignments_eq, assignments_eq, htable, List.map_map]
  rfl

theorem assignments_of_workers {c c' : Crew σ} (hworkers : c'.runner.workers = c.runner.workers)
    (hadrift : c'.adrift = c.adrift) : c.assignments.Subperm c'.assignments := by
  rw [assignments_eq, assignments_eq, hworkers, hadrift]

theorem assignments_ite {p : Prop} [Decidable p] {c c' : Crew σ} (h : p → c.assignments.Subperm c'.assignments) :
    c.assignments.Subperm (if p then c' else c).assignments := by
  split
  · rename_i hp
    exact h hp
  · exact .refl _

theorem assignments_send (c : Crew σ) (number : Nat) : c.assignments.Subperm (c.send number).assignments := by
  rw [send]
  split
  · exact .refl _
  · split
    · exact assignments_of_workers rfl rfl
    · exact assignments_ite fun _ => assignments_of_workers rfl rfl

theorem leave_of_ended {clock : Clock} (hlast : c.runner.isLast = true) (hup : c.hungUp = true)
    (hended : c.updaterEnded = true) {result : Except IndexerError Unit} (hstage : c.runner.stage = .stopping result) :
    c.leave clock = { c.perform (c.runner.tellUpdater clock .closed >>= Runner.parting result) with
      merged := c.merged ++ c.groups clock .closed } := by
  rw [leave, if_pos (by rw [hlast, hup, hended]; rfl), Runner.stepSelf_of_isLast σ clock hlast hstage]

/-- The runner is not ready to leave, or it leaves with a last word to its updater. -/
theorem leave_cases (c : Crew σ) (clock : Clock) : c.leave clock = c ∨
    ∃ result, (c.runner.isLast = true ∧ c.hungUp = true ∧ c.updaterEnded = true) ∧
      c.runner.stage = .stopping result ∧
      c.leave clock = { c.perform (c.runner.tellUpdater clock .closed >>= Runner.parting result) with
        merged := c.merged ++ c.groups clock .closed } := by
  by_cases hready : (c.runner.isLast && c.hungUp && c.updaterEnded) = true
  · simp only [Bool.and_eq_true] at hready
    obtain ⟨⟨hlast, hup⟩, hended⟩ := hready
    obtain ⟨⟨result, hstage⟩, -⟩ := Runner.isLast_iff.1 hlast
    exact Or.inr ⟨result, ⟨hlast, hup, hended⟩, hstage, leave_of_ended hlast hup hended hstage⟩
  · exact Or.inl (if_neg hready)

theorem assignments_leave (c : Crew σ) (clock : Clock) : c.assignments.Subperm (c.leave clock).assignments := by
  rcases leave_cases c clock with hstays | ⟨result, -, -, hleaves⟩
  · exact assignments_of_workers (by rw [hstays]) (by rw [hstays])
  · rw [hleaves]
    exact assignments_of_workers rfl rfl

theorem assignments_move [LockService σ] (c : Crew σ) (m : Move σ) : c.assignments.Subperm (c.move m).assignments := by
  cases m with
  | own clock => exact assignments_own c clock
  | poll clock =>
      rw [move, poll]
      split
      · exact assignments_ite fun _ => assignments_of_workers rfl rfl
      · exact .refl _
  | answerEntities answer =>
      exact assignments_of_workers (Runner.heard_answerEntities answer c.runner c.shared).1.workers rfl
  | step seat clock => exact (assignments_act c seat fun w act hact => Worker.moves_step hact) ▸ .refl _
  | answerTip seat clock answer =>
      refine (assignments_act c seat fun w act hact => ?_) ▸ .refl _
      exact Option.some.inj hact ▸ w.moves_answerTip answer
  | answerFetch seat clock batch answer =>
      refine (assignments_act c seat fun w act hact => ?_) ▸ .refl _
      exact Option.some.inj hact ▸ w.moves_answerFetch batch answer
  | send number => exact assignments_send c number
  | receive clock =>
      rw [move, receive]
      split
      · exact assignments_of_workers rfl rfl
      · exact .refl _
  | deadline clock | hangUp | close clock => exact assignments_ite fun _ => assignments_of_workers rfl rfl
  | leave clock => exact assignments_leave c clock
  | requestShutdown => exact (assignments_requestShutdown c) ▸ .refl _
  | meanwhile shared => exact assignments_of_workers rfl rfl

theorem assignments_run [LockService σ] (c : Crew σ) (moves : List (Move σ)) :
    c.assignments.Subperm (c.run moves).assignments := by
  induction moves generalizing c with
  | nil => exact .refl _
  | cons m moves ih => exact (assignments_move c m).trans (ih (c.move m))

/-! ## Merges -/

/-- Another state has the same record, with some groups at its end, and has merged these into the store. -/
def Merges (c c' : Crew σ) : Prop :=
  ∃ groups, c'.merged = c.merged ++ groups ∧
    (groups = [] ∨ ∃ date, c'.shared.store = (Merge.ofGroups c.shared.store date groups).2)

theorem Merges.of_eq {c' : Crew σ} (h : c'.merged = c.merged) : Merges c c' :=
  ⟨[], by rw [h, List.append_nil], Or.inl rfl⟩

theorem merges_tell (c : Crew σ) (clock : Clock) (event : UpdaterEvent UInt64) : Merges c (c.tell clock event) :=
  ⟨_, rfl, Or.inr ⟨clock.date, rfl⟩⟩

theorem merges_ite {p : Prop} [Decidable p] {c' : Crew σ} (h : p → Merges c c') : Merges c (if p then c' else c) := by
  split
  · rename_i hp
    exact h hp
  · exact .of_eq rfl

theorem merges_leave (c : Crew σ) (clock : Clock) : Merges c (c.leave clock) := by
  rcases leave_cases c clock with hstays | ⟨result, -, -, hleaves⟩
  · exact .of_eq (congrArg merged hstays)
  · rw [hleaves]
    exact ⟨_, rfl, Or.inr ⟨clock.date, rfl⟩⟩

theorem merged_letGo (c : Crew σ) (place : Nat) : (c.letGo place).merged = c.merged := by
  rw [letGo]
  split <;> rfl

/-- No move records a merge that it does not make. -/
theorem merges_move [LockService σ] (c : Crew σ) (m : Move σ) : Merges c (c.move m) := by
  cases m with
  | own clock =>
      rw [move, Crew.own]
      split
      · exact .of_eq rfl
      · split
        · exact .of_eq rfl
        · cases c.runner.vacates? with
          | none => exact .of_eq rfl
          | some place => exact .of_eq (merged_letGo c place)
  | poll clock =>
      rw [move, poll]
      split
      · exact merges_ite fun _ => .of_eq rfl
      · exact .of_eq rfl
  | step seat clock | answerTip seat clock answer | answerFetch seat clock batch answer =>
      rw [move, act]
      split
      · exact .of_eq rfl
      · split
        · exact .of_eq rfl
        · cases seat <;> exact .of_eq rfl
  | send number =>
      rw [move, send]
      split
      · exact .of_eq rfl
      · split
        · exact .of_eq rfl
        · exact merges_ite fun _ => .of_eq rfl
  | receive clock =>
      rw [move, receive]
      split
      · exact merges_tell _ clock _
      · exact .of_eq rfl
  | deadline clock => exact merges_ite fun _ => merges_tell c clock .deadline
  | close clock => exact merges_ite fun _ => merges_tell c clock .closed
  | hangUp => exact merges_ite fun _ => .of_eq rfl
  | leave clock => exact merges_leave c clock
  | answerEntities answer | requestShutdown | meanwhile shared => exact .of_eq rfl

/-- Each group on record was merged into the store by some move, among the groups that became complete with it. -/
theorem merged_run [LockService σ] (c : Crew σ) (moves : List (Move σ)) : ∀ group ∈ (c.run moves).merged,
    group ∈ c.merged ∨ ∃ before m after groups date, moves = before ++ m :: after ∧ group ∈ groups ∧
      (c.run (before ++ [m])).shared.store = (Merge.ofGroups (c.run before).shared.store date groups).2 := by
  induction moves using List.reverseRecOn with
  | nil => exact fun group hgroup => Or.inl hgroup
  | append_singleton moves m ih =>
      intro group hgroup
      have hrun : c.run (moves ++ [m]) = (c.run moves).move m := by rw [run, run, List.foldl_append]; rfl
      rw [hrun] at hgroup
      obtain ⟨groups, hmerged, hstore⟩ := merges_move (c.run moves) m
      rw [hmerged, List.mem_append] at hgroup
      rcases hgroup with hearlier | hnow
      · rcases ih group hearlier with hold | ⟨before, m', after, groups', date, rfl, hmem, hstore'⟩
        · exact Or.inl hold
        · exact Or.inr ⟨before, m', after ++ [m], groups', date, by simp, hmem, hstore'⟩
      · rcases hstore with rfl | ⟨date, hstore⟩
        · cases hnow
        · exact Or.inr ⟨moves, m, [], groups, date, rfl, hnow, hrun ▸ hstore⟩

end Crew

end Backfill
