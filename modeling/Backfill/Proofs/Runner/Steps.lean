import Backfill.Runner

/-!
# What a runner does by itself

Each step of its own keeps the table of workers, tells one of them to stop, or empties or fills one place. A place
is emptied or filled only when nobody is there or whoever is there has ended. The runner stops on a request to shut
down or on an error of configuration, and nothing else.
-/

namespace Backfill.Runner

variable {σ : Type} {r : Runner} {clock : Clock}

/-! ## The table -/

theorem workerAt?_eq_some {place : Nat} {w : Worker} : r.workerAt? place = some w ↔ r.workers[place]? = some (some w) :=
  Option.join_eq_some_iff

theorem workerAt?_setWorker (place other : Nat) (w : Option Worker) :
    (r.setWorker place w).workerAt? other =
      if place = other ∧ place < r.workers.length then w else r.workerAt? other := by
  simp only [workerAt?, setWorker, List.getElem?_set]
  by_cases hplace : place = other
  · subst hplace
    by_cases hlt : place < r.workers.length
    · simp [hlt]
    · simp [hlt]
  · simp [hplace]

theorem done_of_workerAt? {place : Nat} {w : Worker} (hw : r.workerAt? place = some w)
    (hdone : w.result?.isSome = true) : ∀ w', r.workerAt? place = some w' → w'.result?.isSome = true := by
  intro w' hw'
  rw [hw] at hw'
  cases hw'
  exact hdone

theorem workerAt?_of_firstWorker? {w : Worker} {place : Nat} (h : r.firstWorker? = some (w, place)) :
    r.workerAt? place = some w := by
  have hmem := List.mem_of_head? h
  obtain ⟨⟨seat, i⟩, hseat, heq⟩ := List.mem_filterMap.1 hmem
  obtain ⟨w', rfl, heq⟩ := Option.map_eq_some_iff.1 heq
  cases heq
  exact workerAt?_eq_some.2 (List.mk_mem_zipIdx_iff_getElem?.1 hseat)

/-- Nobody is in the table. -/
def Deserted (r : Runner) : Prop := ∀ place, r.workerAt? place = none

theorem firstWorker?_eq_none_iff : r.firstWorker? = none ↔ r.Deserted := by
  constructor
  · intro h place
    rw [Option.eq_none_iff_forall_ne_some]
    intro w hw
    rw [firstWorker?, List.head?_eq_none_iff, List.filterMap_eq_nil_iff] at h
    have hnone := h (some w, place) (List.mk_mem_zipIdx_iff_getElem?.2 (workerAt?_eq_some.1 hw))
    cases hnone
  · intro h
    rw [Option.eq_none_iff_forall_ne_some]
    rintro ⟨w, place⟩ hfirst
    have hw := workerAt?_of_firstWorker? hfirst
    rw [h place] at hw
    cases hw

theorem workerAt?_requestShutdown (place : Nat) :
    r.requestShutdown.workerAt? place = (r.workerAt? place).map Worker.stop := by
  simp only [workerAt?, requestShutdown, List.getElem?_map]
  cases r.workers[place]? with
  | none => rfl
  | some w => rfl

/-! ## Own steps -/

/-- All workers are gone, and only the updater is left. -/
def isLast (r : Runner) : Bool :=
  match r.stage with
  | .stopping _ => r.firstWorker?.isNone
  | _ => false

theorem isLast_iff : r.isLast = true ↔ (∃ result, r.stage = .stopping result) ∧ r.Deserted := by
  rw [← firstWorker?_eq_none_iff, ← Option.isNone_iff_eq_none, isLast]
  cases hstage : r.stage with
  | stopping result => simp
  | _ => simp

/-- The place that the next step of its own empties or fills. -/
def vacates? (r : Runner) : Option Nat :=
  match r.stage with
  | .handing _ ((place, share) :: _) =>
    match r.workerAt? place with
    | none => some place
    | some w => if keeps w share then none else w.result?.map fun _ => place
  | .stopping _ => r.firstWorker?.bind fun (w, place) => w.result?.map fun _ => place
  | _ => none

/-- What becomes of the table, given the place that is emptied or filled. -/
inductive Seated (r : Runner) : Option Nat → List (Option Worker) → Prop where
  | kept : Seated r none r.workers
  | asked {place : Nat} {w : Worker} (hw : r.workerAt? place = some w) :
      Seated r none (r.setWorker place (some w.stop)).workers
  | emptied {place : Nat} (hdone : ∀ w, r.workerAt? place = some w → w.result?.isSome = true) :
      Seated r (some place) (r.setWorker place none).workers
  | filled {place : Nat} {next : Worker} (hdone : ∀ w, r.workerAt? place = some w → w.result?.isSome = true) :
      Seated r (some place) (r.setWorker place (some next)).workers

/-- Whoever is at another place stays there, and may be told to stop. -/
theorem Seated.workerAt? {vacated : Option Nat} {r' : Runner} (h : Seated r vacated r'.workers) {place : Nat}
    (hplace : vacated ≠ some place) :
    r'.workerAt? place = r.workerAt? place ∨
      ∃ w, r.workerAt? place = some w ∧ r'.workerAt? place = some w.stop := by
  have hset : ∀ other w, r'.workers = (r.setWorker other w).workers → r'.workerAt? place =
      if other = place ∧ other < r.workers.length then w else r.workerAt? place := by
    intro other w hw
    rw [← workerAt?_setWorker, Runner.workerAt?, Runner.workerAt?, hw]
  generalize hworkers : r'.workers = workers at h
  cases h with
  | kept =>
      left
      rw [Runner.workerAt?, Runner.workerAt?, hworkers]
  | @asked other w hw =>
      rw [hset other _ hworkers]
      split
      · rename_i hother
        exact Or.inr ⟨w, hother.1 ▸ hw, rfl⟩
      · exact Or.inl rfl
  | @emptied other hdone =>
      rw [hset other _ hworkers, if_neg fun hother => hplace (congrArg some hother.1)]
      exact Or.inl rfl
  | @filled other next hdone =>
      rw [hset other _ hworkers, if_neg fun hother => hplace (congrArg some hother.1)]
      exact Or.inl rfl

theorem Seated.done {workers : List (Option Worker)} {place : Nat} {w : Worker}
    (h : Seated r (some place) workers) (hw : r.workerAt? place = some w) : w.result?.isSome = true := by
  cases h with
  | emptied hdone => exact hdone w hw
  | filled hdone => exact hdone w hw

/-- There is a reason to stop with a result: a request to shut down, or an error of configuration. -/
def StopsFor (shutdown : Bool) (result : Except IndexerError Unit) : Prop :=
  (result = .ok () ∧ shutdown = true) ∨ ∃ e, result = .error (.config e)

/-- What a step of the runner's own leads to, before the last one. -/
structure Own (r : Runner) (s : Shared σ) (r' : Runner) (s' : Shared σ) : Prop where
  setup : r'.setup = r.setup
  updater : r'.updater = r.updater
  shutdown : r'.shutdown = r.shutdown
  table : Seated r r.vacates? r'.workers
  stopping : ∀ result, r'.stage = .stopping result → r.stage = .stopping result ∨ StopsFor r.shutdown result
  running : r'.result? = none
  outbox : s'.outbox = s.outbox

/-- What a step of the runner's own does about the next share. -/
inductive Handed (r : Runner) (poll place : Nat) (share : List Entity) (rest : List (Nat × List Entity)) :
    Runner → Prop where
  | asked {w : Worker} (hvacates : r.vacates? = none) (hw : r.workerAt? place = some w) :
      Handed r poll place share rest (r.setWorker place (some w.stop))
  | kept {w : Worker} (hvacates : r.vacates? = none) (hw : r.workerAt? place = some w) (hkeeps : keeps w share = true) :
      Handed r poll place share rest { r with stage := .handing poll rest }
  | hired {endpoint : Endpoint} {next : Worker} (hvacates : r.vacates? = some place)
      (hplace : r.setup.endpoints[place]? = some endpoint) (hshare : share ≠ [])
      (hnext : next.assignment = ⟨r.setup, endpoint, r.costs, share⟩) :
      Handed r poll place share rest ({ r with stage := .handing poll rest }.setWorker place (some next))
  | emptied (hvacates : r.vacates? = some place) (hshare : r.setup.endpoints[place]? = none ∨ share = []) :
      Handed r poll place share rest ({ r with stage := .handing poll rest }.setWorker place none)
  | broken (hvacates : r.vacates? = some place) (e : ConfigError) :
      Handed r poll place share rest { r.setWorker place none with stage := .stopping (.error (.config e)) }

theorem handed_hire {poll place : Nat} {share : List Entity} {rest : List (Nat × List Entity)}
    (hvacates : r.vacates? = some place) (s : Shared σ) :
    Handed r poll place share rest ((hire clock place share { r with stage := .handing poll rest }).run s).1 ∧
      ((hire clock place share { r with stage := .handing poll rest }).run s).2.outbox = s.outbox := by
  unfold hire
  split
  · rename_i endpoint first others hplace
    refine ⟨.hired hvacates hplace (List.cons_ne_nil first others) ?_, rfl⟩
    split <;> rfl
  · rename_i hnone
    refine ⟨.emptied hvacates ?_, rfl⟩
    cases hplace : r.setup.endpoints[place]? with
    | none => exact Or.inl rfl
    | some endpoint =>
        right
        rw [List.eq_nil_iff_forall_not_mem]
        intro e he
        obtain ⟨first, others, hshare⟩ := List.exists_cons_of_ne_nil (List.ne_nil_of_mem he)
        exact hnone endpoint first others hplace hshare

theorem handed_stepSelf {poll place : Nat} {share : List Entity} {rest : List (Nat × List Entity)}
    (hstage : r.stage = .handing poll ((place, share) :: rest)) {act : Act σ Runner}
    (h : r.stepSelf clock = some act) (s : Shared σ) :
    Handed r poll place share rest (act.run s).1 ∧ (act.run s).2.outbox = s.outbox := by
  have hvacates : r.vacates? = match r.workerAt? place with
      | none => some place
      | some w => if keeps w share then none else w.result?.map fun _ => place := by rw [vacates?, hstage]
  simp only [stepSelf, hstage] at h
  cases hw : r.workerAt? place with
  | none =>
      simp only [hw] at h hvacates
      cases h
      exact handed_hire hvacates s
  | some w =>
      simp only [hw] at h hvacates
      split at h
      · rename_i hkeeps
        rw [if_pos hkeeps] at hvacates
        cases h
        exact ⟨.kept hvacates hw hkeeps, rfl⟩
      · rename_i hkeeps
        rw [if_neg hkeeps] at hvacates
        split at h
        · rename_i result hresult
          cases h
          rw [hresult] at hvacates
          cases result with
          | ok _ => exact handed_hire hvacates s
          | error e =>
              cases e with
              | config e => exact ⟨.broken hvacates e, rfl⟩
              | _ => exact handed_hire hvacates _
        · rename_i hresult
          rw [hresult] at hvacates
          split at h
          · cases h
          · cases h
            exact ⟨.asked hvacates hw, rfl⟩

/-- A step of the runner's own, before the last one. -/
inductive Stepped (r : Runner) : Runner → Prop where
  | stop {poll : Nat} (hstage : r.stage = .waiting poll) (hshutdown : r.shutdown = true) :
      Stepped r { r with stage := .stopping (.ok ()) }
  | poll {poll next : Nat} (hstage : r.stage = .waiting poll) : Stepped r { r with stage := .polling next }
  | handed {poll place : Nat} {share : List Entity} {rest : List (Nat × List Entity)} {r' : Runner}
      (hstage : r.stage = .handing poll ((place, share) :: rest)) (h : Handed r poll place share rest r') : Stepped r r'
  | rest {poll : Nat} (hstage : r.stage = .handing poll []) : Stepped r { r with stage := .waiting poll }
  | ask {result : Except IndexerError Unit} {place : Nat} {w : Worker} (hstage : r.stage = .stopping result)
      (hvacates : r.vacates? = none) (hw : r.workerAt? place = some w) : Stepped r (r.setWorker place (some w.stop))
  | drop {result : Except IndexerError Unit} {place : Nat} (hstage : r.stage = .stopping result)
      (hvacates : r.vacates? = some place) : Stepped r (r.setWorker place none)

theorem stepped_stopping {result : Except IndexerError Unit} (hstage : r.stage = .stopping result)
    (hlast : r.isLast = false) {act : Act σ Runner} (h : r.stepSelf clock = some act) (s : Shared σ) :
    Stepped r (act.run s).1 ∧ (act.run s).2.outbox = s.outbox := by
  have hvacates : r.vacates? = r.firstWorker?.bind fun (w, place) => w.result?.map fun _ => place := by
    rw [vacates?, hstage]
  simp only [stepSelf, hstage] at h
  split at h
  · rename_i w place hfirst
    simp only [hfirst, Option.bind_some] at hvacates
    split at h
    · rename_i hresult
      cases h
      exact ⟨.drop hstage (by rw [hvacates, hresult, Option.map_some]), rfl⟩
    · rename_i e hresult
      cases h
      exact ⟨.drop hstage (by rw [hvacates, hresult, Option.map_some]), rfl⟩
    · rename_i hresult
      split at h
      · cases h
      · cases h
        exact ⟨.ask hstage (by rw [hvacates, hresult, Option.map_none]) (workerAt?_of_firstWorker? hfirst), rfl⟩
  · rename_i hfirst
    simp [isLast, hstage, hfirst] at hlast

theorem stepped_stepSelf (hlast : r.isLast = false) {act : Act σ Runner} (h : r.stepSelf clock = some act)
    (s : Shared σ) : Stepped r (act.run s).1 ∧ (act.run s).2.outbox = s.outbox := by
  cases hstage : r.stage with
  | waiting poll =>
      simp only [stepSelf, hstage] at h
      split at h
      · rename_i hshutdown
        cases h
        exact ⟨.stop hstage hshutdown, rfl⟩
      · split at h
        · cases h
          exact ⟨.poll hstage, rfl⟩
        · cases h
  | polling poll =>
      simp only [stepSelf, hstage] at h
      cases h
  | handing poll shares =>
      cases shares with
      | nil =>
          simp only [stepSelf, hstage] at h
          cases h
          exact ⟨.rest hstage, rfl⟩
      | cons first rest => exact (handed_stepSelf hstage h s).imp_left (.handed hstage)
  | stopping result => exact stepped_stopping hstage hlast h s
  | ended result =>
      simp only [stepSelf, hstage] at h
      cases h

/-- Whoever is at a place has ended when the place is emptied or filled. -/
theorem done_of_vacates? {place : Nat} (h : r.vacates? = some place) {w : Worker} (hw : r.workerAt? place = some w) :
    w.result?.isSome = true := by
  rw [vacates?] at h
  split at h
  · rename_i poll other share rest hstage
    cases hother : r.workerAt? other with
    | none =>
        simp only [hother, Option.some.injEq] at h
        rw [← h, hother] at hw
        cases hw
    | some w' =>
        simp only [hother] at h
        split at h
        · cases h
        · obtain ⟨result, hresult, rfl⟩ := Option.map_eq_some_iff.1 h
          exact done_of_workerAt? hother (Option.isSome_of_eq_some hresult) w hw
  · obtain ⟨⟨w', other⟩, hfirst, h⟩ := Option.bind_eq_some_iff.1 h
    obtain ⟨result, hresult, rfl⟩ := Option.map_eq_some_iff.1 h
    exact done_of_workerAt? (workerAt?_of_firstWorker? hfirst) (Option.isSome_of_eq_some hresult) w hw
  · cases h

theorem Handed.own {poll place : Nat} {share : List Entity} {rest : List (Nat × List Entity)} {r' : Runner}
    (h : Handed r poll place share rest r') (hstage : r.stage = .handing poll ((place, share) :: rest))
    {s s' : Shared σ} (houtbox : s'.outbox = s.outbox) : Own r s r' s' := by
  have hdone : r.vacates? = some place → ∀ w, r.workerAt? place = some w → w.result?.isSome = true :=
    fun hvacates _ => done_of_vacates? hvacates
  cases h with
  | @asked w hvacates hw =>
      have hrunning : (r.setWorker place (some w.stop)).result? = none := by simp [result?, setWorker, hstage]
      exact ⟨rfl, rfl, rfl, hvacates ▸ .asked hw, fun _ h => Or.inl h, hrunning, houtbox⟩
  | kept hvacates hw hkeeps => exact ⟨rfl, rfl, rfl, hvacates ▸ .kept, fun _ h => (by cases h), rfl, houtbox⟩
  | hired hvacates hplace hshare hnext =>
      exact ⟨rfl, rfl, rfl, hvacates ▸ .filled (hdone hvacates), fun _ h => (by cases h), rfl, houtbox⟩
  | emptied hvacates hshare =>
      exact ⟨rfl, rfl, rfl, hvacates ▸ .emptied (hdone hvacates), fun _ h => (by cases h), rfl, houtbox⟩
  | broken hvacates e =>
      refine ⟨rfl, rfl, rfl, hvacates ▸ .emptied (hdone hvacates), fun result h => Or.inr (Or.inr ?_), rfl, houtbox⟩
      cases h
      exact ⟨e, rfl⟩

theorem Stepped.own {r' : Runner} (h : Stepped r r') {s s' : Shared σ} (houtbox : s'.outbox = s.outbox) :
    Own r s r' s' := by
  cases h with
  | stop hstage hshutdown =>
      have hvacates : r.vacates? = none := by rw [vacates?, hstage]
      refine ⟨rfl, rfl, rfl, hvacates ▸ .kept, fun result h => Or.inr (Or.inl ?_), rfl, houtbox⟩
      cases h
      exact ⟨rfl, hshutdown⟩
  | poll hstage | rest hstage =>
      have hvacates : r.vacates? = none := by rw [vacates?, hstage]
      exact ⟨rfl, rfl, rfl, hvacates ▸ .kept, fun _ h => (by cases h), rfl, houtbox⟩
  | handed hstage h => exact h.own hstage houtbox
  | @ask result place w hstage hvacates hw =>
      have hrunning : (r.setWorker place (some w.stop)).result? = none := by simp [result?, setWorker, hstage]
      exact ⟨rfl, rfl, rfl, hvacates ▸ .asked hw, fun _ h => Or.inl h, hrunning, houtbox⟩
  | @drop result place hstage hvacates =>
      have hrunning : (r.setWorker place none).result? = none := by simp [result?, setWorker, hstage]
      exact ⟨rfl, rfl, rfl, hvacates ▸ .emptied fun w => done_of_vacates? hvacates, fun _ h => Or.inl h, hrunning,
        houtbox⟩

theorem own_stepSelf (hlast : r.isLast = false) {act : Act σ Runner} (h : r.stepSelf clock = some act)
    (s : Shared σ) : Own r s (act.run s).1 (act.run s).2 := by
  obtain ⟨hstepped, houtbox⟩ := stepped_stepSelf hlast h s
  exact hstepped.own houtbox

/-- What the source answers counts only while it is asked, and leads to the next poll or to new shares. -/
inductive Heard (r : Runner) : Runner → Prop where
  | ignored : Heard r r
  | counted {poll : Nat} {stage : RunnerStage} (hpolling : r.stage = .polling poll)
      (hstage : ∀ result, stage ≠ .stopping result ∧ stage ≠ .ended result) : Heard r { r with stage }

theorem Heard.workers {r' : Runner} (h : Heard r r') : r'.workers = r.workers := by
  cases h with
  | ignored => rfl
  | counted hpolling hstage => rfl

theorem Heard.updater {r' : Runner} (h : Heard r r') : r'.updater = r.updater := by
  cases h with
  | ignored => rfl
  | counted hpolling hstage => rfl

theorem Heard.result? {r' : Runner} (h : Heard r r') : r'.result? = r.result? := by
  cases h with
  | ignored => rfl
  | @counted poll stage hpolling hstage =>
      simp only [Runner.result?, hpolling]
      cases stage with
      | ended result => exact absurd rfl (hstage result).2
      | _ => rfl

theorem heard_answerEntities (answer : Except String (List Entity)) (r : Runner) (s : Shared σ) :
    Heard r ((r.answerEntities answer).run s).1 ∧ ((r.answerEntities answer).run s).2.outbox = s.outbox := by
  cases hstage : r.stage with
  | polling poll =>
      simp only [answerEntities, hstage]
      cases answer with
      | error e => exact ⟨.counted hstage (by simp), rfl⟩
      | ok entities => exact ⟨.counted hstage (by simp), rfl⟩
  | _ =>
      simp only [answerEntities, hstage]
      exact ⟨.ignored, rfl⟩

/-- A runner that has ended does nothing more. -/
theorem result?_of_stepSelf {act : Act σ Runner} (h : r.stepSelf clock = some act) : r.result? = none := by
  rw [result?]
  split
  · rename_i hstage
    simp only [stepSelf, hstage] at h
    cases h
  · rfl

/-- What is left to do when the updater has been told of the end. -/
def parting (result : Except IndexerError Unit) (r : Runner) : Act σ Runner := do
  Shared.say [Merge.stoppedEntry, entry .info "Chain runner stopped" []]
  return { r with stage := .ended result }

/-- The last step of a runner that waits for nobody but the updater. -/
theorem stepSelf_of_isLast (σ : Type) (clock : Clock) (h : r.isLast = true) {result : Except IndexerError Unit}
    (hstage : r.stage = .stopping result) :
    r.stepSelf (σ := σ) clock = some (r.tellUpdater clock .closed >>= parting result) := by
  simp only [stepSelf, hstage, firstWorker?_eq_none_iff.2 (isLast_iff.1 h).2]
  rfl

end Backfill.Runner
