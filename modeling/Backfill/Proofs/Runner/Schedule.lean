import Backfill.Proofs.Runner
import Backfill.Proofs.Runner.Return

/-!
# The schedule of a runner

A runner that moves its workers itself, and hands over to the updater at once what they bring, goes through states
that its tasks reach in some order of their moves as well.
-/

namespace Backfill

/-! ## Entries aside -/

namespace Shared

variable {σ β γ : Type}

/-- The act takes no notice of the log but writes at its end. -/
def Appends (act : Act σ β) : Prop :=
  ∀ s before, act.run { s with log := before ++ s.log } =
    ((act.run s).1, { (act.run s).2 with log := before ++ (act.run s).2.log })

theorem appends_pure (x : β) : Appends (pure x : Act σ β) := fun _ _ => rfl

theorem Appends.bind {act : Act σ β} {f : β → Act σ γ} (h : Appends act) (hf : ∀ x, Appends (f x)) :
    Appends (act >>= f) := by
  intro s before
  have hrun : ∀ t, (act >>= f).run t = (f (act.run t).1).run (act.run t).2 := fun _ => rfl
  rw [hrun, hrun, h s before]
  exact hf (act.run s).1 (act.run s).2 before

theorem appends_say (entries : List Log.Entry) : Appends (say entries : Act σ Unit) := by
  intro s before
  change ((), { s with log := before ++ s.log ++ entries }) = ((), { s with log := before ++ (s.log ++ entries) })
  rw [Array.toList_inj.1 (show (before ++ s.log ++ entries).toList = (before ++ (s.log ++ entries)).toList by simp)]

theorem within_run (span : Log.Span) (act : Act σ β) (s : Shared σ) :
    (within span act).run s = ((act.run { s with log := #[] }).1,
      { (act.run { s with log := #[] }).2 with
        log := s.log ++ (act.run { s with log := #[] }).2.log.map (·.inside [span]) }) := rfl

theorem within_pure (span : Log.Span) (x : β) (s : Shared σ) : (within span (pure x : Act σ β)).run s = (x, s) := by
  have hlog : s.log ++ (#[] : Array Log.Entry).map (·.inside [span]) = s.log := by
    rw [Array.map_empty, Array.append_empty]
  rw [within_run]
  change (x, { s with log := s.log ++ (#[] : Array Log.Entry).map (·.inside [span]) }) = (x, s)
  rw [hlog]

/-- What comes later in a span may come in a span of its own. -/
theorem within_bind (span : Log.Span) {act : Act σ β} {f : β → Act σ γ} (hf : ∀ x, Appends (f x)) (s : Shared σ) :
    (within span (act >>= f)).run s =
      (within span (f ((within span act).run s).1)).run ((within span act).run s).2 := by
  have hrun : (act >>= f).run { s with log := #[] } =
      (f (act.run { s with log := #[] }).1).run (act.run { s with log := #[] }).2 := rfl
  simp only [within_run, hrun]
  generalize act.run { s with log := #[] } = first
  obtain ⟨x, t⟩ := first
  have hlater := hf x { t with log := #[] } t.log
  rw [Array.append_empty] at hlater
  simp only [hlater, Array.map_append, Array.append_assoc]

end Shared

namespace Runner

variable {σ : Type} {clock : Clock}

theorem appends_tellUpdater (clock : Clock) (event : UpdaterEvent UInt64) (r : Runner) :
    Shared.Appends (r.tellUpdater clock event : Act σ Runner) := by
  refine Shared.Appends.bind (fun s before => ?_) fun _ => Shared.appends_pure _
  exact Shared.appends_say _ { s with store := (Merge.ofGroups s.store clock.date
    (r.updater.step r.limits clock.timer event).2).2 } before

/-- An updater that has ended has nothing to do at the end. -/
theorem tellUpdater_closed (clock : Clock) {r : Runner} (h : r.updater = {}) :
    (r.tellUpdater clock .closed : Act σ Runner) = pure r := by
  have hgroups : r.updater.step r.limits clock.timer .closed = ({}, []) := by rw [h]; rfl
  funext s
  change ({ r with updater := (r.updater.step r.limits clock.timer .closed).1 },
    ((mergeGroups clock.date (r.updater.step r.limits clock.timer .closed).2).run s).2) = (r, s)
  rw [hgroups, ← h]
  change (r, { s with log := s.log ++ ([] : List Log.Entry) }) = (r, s)
  rw [Array.appendList_nil]

theorem appends_parting (result : Except IndexerError Unit) (r : Runner) :
    Shared.Appends (parting result r : Act σ Runner) :=
  (Shared.appends_say _).bind fun _ => Shared.appends_pure _

/-- Once the updater has ended, telling it so again changes nothing about the rest. -/
theorem within_parting (clock : Clock) (result : Except IndexerError Unit) (r : Runner) (s : Shared σ) :
    let told := (Shared.within (span r.setup) (r.tellUpdater clock .closed)).run s
    (Shared.within (span r.setup) (told.1.tellUpdater clock .closed >>= parting result)).run told.2 =
      (Shared.within (span r.setup) (r.tellUpdater clock .closed >>= parting result)).run s := by
  intro told
  have hended : told.1.updater = {} := rfl
  rw [tellUpdater_closed clock hended, pure_bind, Shared.within_bind _ (appends_parting result)]

def tellAll (clock : Clock) (outcomes : List (Outcome UInt64)) (r : Runner) : Act σ Runner :=
  outcomes.foldlM (fun r o => r.tellUpdater clock (.outcome o)) r

theorem appends_tellAll (clock : Clock) (outcomes : List (Outcome UInt64)) (r : Runner) :
    Shared.Appends (r.tellAll clock outcomes : Act σ Runner) := by
  induction outcomes generalizing r with
  | nil => exact Shared.appends_pure r
  | cons o rest ih =>
      rw [tellAll, List.foldlM_cons]
      exact (appends_tellUpdater clock _ r).bind ih

theorem tellAll_run (clock : Clock) (outcomes : List (Outcome UInt64)) (r : Runner) (s : Shared σ) :
    ((r.tellAll clock outcomes).run s).1.stage = r.stage ∧ ((r.tellAll clock outcomes).run s).2.outbox = s.outbox := by
  induction outcomes generalizing r s with
  | nil => exact ⟨rfl, rfl⟩
  | cons o rest ih =>
      rw [tellAll, List.foldlM_cons]
      exact ih _ _

end Runner

namespace Crew

variable {σ : Type} [LockService σ] {c : Crew σ} {clock : Clock}

/-! ## What is brought is handed over -/

/-- Outcomes enter the channel and leave it one by one. -/
def handOver (clock : Clock) (outcomes : List (Outcome UInt64)) : List (Move σ) :=
  outcomes.flatMap fun _ => [.send 0, .receive clock]

/-- What is different once the updater was told all outcomes that a worker had to send. -/
structure HandedOver (clock : Clock) (outcomes : List (Outcome UInt64)) (c c' : Crew σ) : Prop where
  runner : c'.runner =
    ((Shared.within (Runner.span c.runner.setup) (c.runner.tellAll clock outcomes)).run c.shared).1
  shared : c'.shared =
    ((Shared.within (Runner.span c.runner.setup) (c.runner.tellAll clock outcomes)).run c.shared).2
  unsent : c'.unsent = []
  channel : c'.channel = []
  ended : c'.updaterEnded = c.updaterEnded

theorem handedOver_run (clock : Clock) (seat : Seat) (outcomes : List (Outcome UInt64))
    (hunsent : c.unsent = outcomes.map (seat, ·)) (hchannel : c.channel = []) (hopen : c.updaterEnded = false) :
    HandedOver clock outcomes c (c.run (handOver clock outcomes)) := by
  induction outcomes generalizing c with
  | nil =>
      refine ⟨?_, ?_, hunsent, hchannel, rfl⟩
      · rw [Runner.tellAll, List.foldlM_nil, Shared.within_pure]
        rfl
      · rw [Runner.tellAll, List.foldlM_nil, Shared.within_pure]
        rfl
  | cons o rest ih =>
      have hsend : c.send 0 =
          { c with unsent := rest.map (seat, ·), sent := c.sent ++ [o], channel := c.channel ++ [o] } := by
        have hroom : c.channel.length < c.capacity := by
          rw [hchannel, capacity, List.length_nil]
          omega
        rw [send, hunsent]
        simp only [List.map_cons, List.getElem?_cons_zero, List.eraseIdx_cons_zero]
        rw [if_neg (hopen ▸ Bool.false_ne_true), if_pos hroom]
      have hreceive : ((c.send 0).receive clock) =
          ({ c with unsent := rest.map (seat, ·), sent := c.sent ++ [o], channel := [] } : Crew σ).tell clock
            (.outcome o) := by
        rw [hsend, receive]
        simp only [hopen, hchannel, List.nil_append]
      have hrun : c.run (handOver clock (o :: rest)) = ((c.send 0).receive clock).run (handOver clock rest) := rfl
      have hlater := ih (c := (c.send 0).receive clock) (by rw [hreceive]; rfl) (by rw [hreceive]; rfl)
        (by rw [hreceive]; exact hopen)
      rw [← hrun] at hlater
      have hsplit : (Shared.within (Runner.span c.runner.setup) (c.runner.tellAll clock (o :: rest))).run c.shared =
          (Shared.within (Runner.span ((c.send 0).receive clock).runner.setup)
            (((c.send 0).receive clock).runner.tellAll clock rest)).run ((c.send 0).receive clock).shared := by
        rw [hreceive, Runner.tellAll, List.foldlM_cons]
        exact Shared.within_bind _ (Runner.appends_tellAll clock rest) c.shared
      refine ⟨?_, ?_, hlater.unsent, hlater.channel, ?_⟩
      · rw [hsplit]
        exact hlater.runner
      · rw [hsplit]
        exact hlater.shared
      · rw [hlater.ended, hreceive]
        rfl

/-! ## The runner's own order -/

/-- The tasks of a runner that moves its workers itself: nothing is between them. -/
structure Mirrors (s : ChainRun σ) (c : Crew σ) : Prop where
  orderly : Orderly c
  runner : c.runner = s.runner
  shared : c.shared = s.shared
  outbox : c.shared.outbox = []
  unsent : c.unsent = []
  channel : c.channel = []
  /-- The updater takes outcomes until the runner has ended, and has none then. -/
  taking : c.updaterEnded = c.runner.result?.isSome
  rested : c.runner.result?.isSome = true → c.runner.updater.due = none

omit [LockService σ] in
theorem Mirrors.deserted {s : ChainRun σ} (h : Mirrors s c) (hended : c.runner.result?.isSome = true) :
    c.runner.Deserted := by
  obtain ⟨result, hresult⟩ := Option.isSome_iff_exists.1 hended
  exact (h.orderly.leaving.hungUp (h.orderly.leaving.closed (h.orderly.leaving.ended result hresult).1).1).1

theorem Mirrors.act {s : ChainRun σ} (h : Mirrors s c) (clock : Clock) {place : Nat} {w : Worker}
    {f : Worker → Option (Act σ Worker)} {act : Act σ Worker} (hf : ∀ w act, f w = some act → w.Moves act)
    (hw : c.runner.workerAt? place = some w) (hact : f w = some act) :
    Mirrors (s.perform do (s.runner.setWorker place (some (← act))).receive clock)
      ((c.act (.place place) f).run (handOver clock (act.run c.shared).2.outbox)) := by
  obtain ⟨runner, shared⟩ := s
  obtain rfl : c.runner = runner := h.runner
  obtain rfl : c.shared = shared := h.shared
  have hrunning : c.runner.result?.isSome = false := by
    by_contra hended
    rw [Bool.not_eq_false] at hended
    rw [h.deserted hended place] at hw
    cases hw
  have hseated : c.act (.place place) f = c.seated (.place place) (act.run c.shared).1 (act.run c.shared).2 := by
    have hclean : { c.shared with outbox := [] } = c.shared := by rw [← h.outbox]
    rw [Crew.act]
    simp only [workerAt?, hw, Option.bind_some, hact, hclean]
    rw [owes, h.unsent, List.any_nil, Bool.false_and, if_neg Bool.false_ne_true]
  have horderly := (h.orderly.act (.place place) hf).run (handOver clock (act.run c.shared).2.outbox)
  rw [hseated] at horderly ⊢
  have hover := handedOver_run (c := c.seated (.place place) (act.run c.shared).1 (act.run c.shared).2) clock
    (.place place) (act.run c.shared).2.outbox
    (by rw [seated, h.unsent, List.nil_append]) h.channel (h.taking.trans hrunning)
  have htold := Runner.tellAll_run clock (act.run c.shared).2.outbox
    (c.runner.setWorker place (some (act.run c.shared).1)) { (act.run c.shared).2 with outbox := [], log := #[] }
  generalize (c.seated (.place place) (act.run c.shared).1 (act.run c.shared).2).run
    (handOver clock (act.run c.shared).2.outbox) = c' at horderly hover ⊢
  have hstill : c'.runner.result?.isSome = false := by
    have hstage : c'.runner.stage = c.runner.stage := by
      rw [hover.runner]
      exact htold.1
    rw [Runner.result?, hstage]
    exact hrunning
  refine ⟨horderly, hover.runner, hover.shared, ?_, hover.unsent, hover.channel, ?_, fun hended => ?_⟩
  · rw [hover.shared]
    exact htold.2
  · rw [hover.ended, hstill]
    exact h.taking.trans hrunning
  · rw [hstill] at hended
    cases hended

omit [LockService σ] in
theorem Mirrors.own {s : ChainRun σ} (h : Mirrors s c) (hlast : c.runner.isLast = false) {act : Act σ Runner}
    (hact : s.runner.stepSelf clock = some act) :
    Mirrors (s.perform (Shared.within (Runner.span s.runner.setup) act)) (c.own clock) := by
  obtain ⟨runner, shared⟩ := s
  obtain rfl : c.runner = runner := h.runner
  obtain rfl : c.shared = shared := h.shared
  have hown := Runner.own_stepSelf hlast hact { c.shared with log := #[] }
  have hrunning : c.runner.result?.isSome = false := by rw [Runner.result?_of_stepSelf hact, Option.isSome_none]
  have horderly := h.orderly.own clock
  obtain ⟨adrift, unsent, hgone, hunsent⟩ : ∃ adrift unsent,
      c.runner.vacates?.elim c c.letGo = { c with adrift, unsent } ∧ unsent.map (·.2) = c.unsent.map (·.2) := by
    cases c.runner.vacates? with
    | none => exact ⟨_, _, rfl, rfl⟩
    | some place => exact letGo_eq c place
  have heq : c.own clock = ({ c with adrift, unsent } : Crew σ).perform act := by
    rw [Crew.own, hlast, if_neg Bool.false_ne_true]
    simp only [hact, hgone]
  rw [heq] at horderly ⊢
  rw [h.unsent, List.map_nil, List.map_eq_nil_iff] at hunsent
  refine ⟨horderly, rfl, rfl, hown.outbox.trans h.outbox, hunsent, h.channel, ?_, fun hended => ?_⟩
  · change c.updaterEnded = (act.run { c.shared with log := #[] }).1.result?.isSome
    rw [hown.running, Option.isSome_none]
    exact h.taking.trans hrunning
  · change (act.run { c.shared with log := #[] }).1.result?.isSome = true at hended
    rw [hown.running] at hended
    cases hended

omit [LockService σ] in
/-- When all workers are gone and the channel is empty, the updater may end as soon as the runner hangs up. -/
theorem close_hangUp (clock : Clock) (hlast : c.runner.isLast = true) (hopen : c.updaterEnded = false)
    (hchannel : c.channel = []) (hall : ∀ w ∈ c.workers, w.result?.isSome = true) :
    c.hangUp.close clock = { c.tell clock .closed with hungUp := true, updaterEnded := true } := by
  rw [hangUp, if_pos hlast, close, if_pos]
  · rfl
  · simp only [hopen, hchannel, Bool.not_false, Bool.true_and, List.isEmpty_nil]
    exact List.all_eq_true.2 hall

theorem Mirrors.last {s : ChainRun σ} (h : Mirrors s c) (hlast : c.runner.isLast = true) {act : Act σ Runner}
    (hact : s.runner.stepSelf clock = some act) :
    Mirrors (s.perform (Shared.within (Runner.span s.runner.setup) act))
      (c.run [.hangUp, .close clock, .leave clock]) := by
  obtain ⟨runner, shared⟩ := s
  obtain rfl : c.runner = runner := h.runner
  obtain rfl : c.shared = shared := h.shared
  have hopen : c.updaterEnded = false := by
    rw [h.taking, Runner.result?_of_stepSelf hact, Option.isSome_none]
  obtain ⟨⟨result, hstage⟩, hdeserted⟩ := Runner.isLast_iff.1 hlast
  rw [Runner.stepSelf_of_isLast σ clock hlast hstage] at hact
  cases hact
  have hclosed := close_hangUp clock hlast hopen h.channel (h.orderly.workers_ended hdeserted)
  have hrun : c.run [.hangUp, .close clock, .leave clock] = (c.hangUp.close clock).leave clock := rfl
  have horderly := h.orderly.run [.hangUp, .close clock, .leave clock]
  rw [hrun, hclosed, leave_of_ended (by exact hlast) rfl rfl (by exact hstage)] at horderly ⊢
  -- the updater has been told of the end before the runner tells it again
  have hparting := Runner.within_parting clock result c.runner c.shared
  exact ⟨horderly, congrArg Prod.fst hparting, congrArg Prod.snd hparting, h.outbox, h.unsent, h.channel, rfl,
    fun _ => rfl⟩

omit [LockService σ] in
theorem Mirrors.deadline {s : ChainRun σ} (h : Mirrors s c) (hdue : s.runner.updater.isDue clock.timer = true) :
    Mirrors (s.perform (Shared.within (Runner.span s.runner.setup) (s.runner.tellUpdater clock .deadline)))
      (c.deadline clock) := by
  obtain ⟨runner, shared⟩ := s
  obtain rfl : c.runner = runner := h.runner
  obtain rfl : c.shared = shared := h.shared
  have hrunning : c.runner.result?.isSome = false := by
    by_contra hended
    rw [Bool.not_eq_false] at hended
    rw [Updater.isDue, h.rested hended] at hdue
    cases hdue
  have heq : c.deadline clock = c.tell clock .deadline := by
    rw [Crew.deadline, h.taking, hrunning, hdue]
    rfl
  have horderly := h.orderly.deadline clock
  rw [heq] at horderly ⊢
  refine ⟨horderly, rfl, rfl, h.outbox, h.unsent, h.channel, h.taking, fun hended => ?_⟩
  change c.runner.result?.isSome = true at hended
  rw [hrunning] at hended
  cases hended

omit [LockService σ] in
theorem Mirrors.answerEntities {s : ChainRun σ} (h : Mirrors s c) (answer : Except String (List Entity)) :
    Mirrors (s.perform (s.runner.answerEntities answer)) (c.answerEntities answer) := by
  obtain ⟨runner, shared⟩ := s
  obtain rfl : c.runner = runner := h.runner
  obtain rfl : c.shared = shared := h.shared
  obtain ⟨hheard, houtbox⟩ := Runner.heard_answerEntities answer c.runner c.shared
  refine ⟨h.orderly.answerEntities answer, rfl, rfl, houtbox.trans h.outbox, h.unsent, h.channel,
    h.taking.trans (congrArg Option.isSome hheard.result?.symm), fun hended => ?_⟩
  change ((c.runner.answerEntities answer).run c.shared).1.result?.isSome = true at hended
  change ((c.runner.answerEntities answer).run c.shared).1.updater.due = none
  rw [hheard.result?] at hended
  rw [hheard.updater]
  exact h.rested hended

omit [LockService σ] in
theorem Mirrors.requestShutdown {s : ChainRun σ} (h : Mirrors s c) :
    Mirrors { s with runner := s.runner.requestShutdown }
      { c with runner := c.runner.requestShutdown, adrift := c.adrift.map Worker.stop } :=
  ⟨h.orderly.requestShutdown, congrArg Runner.requestShutdown h.runner, h.shared, h.outbox, h.unsent, h.channel,
    h.taking, h.rested⟩

omit [LockService σ] in
theorem Mirrors.meanwhile {s : ChainRun σ} (h : Mirrors s c) (gate : Gate σ) :
    Mirrors { s with shared := { s.shared with gate } } { c with shared := { c.shared with gate } } :=
  ⟨h.orderly.meanwhile _, h.runner, congrArg (fun shared => { shared with gate }) h.shared, h.outbox, h.unsent,
    h.channel, h.taking, h.rested⟩

theorem Mirrors.step {s : ChainRun σ} (h : Mirrors s c) {act : Act σ Runner} (hact : s.runner.step clock = some act) :
    ∃ moves, Mirrors (s.perform act) (c.run moves) := by
  rw [Runner.step] at hact
  split at hact
  · rename_i self hself
    cases hact
    by_cases hlast : c.runner.isLast = true
    · exact ⟨_, h.last hlast hself⟩
    · exact ⟨[.own clock], h.own (Bool.eq_false_of_not_eq_true hlast) hself⟩
  · split at hact
    · rename_i workers hworkers
      cases hact
      obtain ⟨⟨seat, place⟩, hseat, hmoves⟩ := List.exists_of_findSome?_eq_some hworkers
      obtain ⟨inner, hinner, rfl⟩ := Option.map_eq_some_iff.1 hmoves
      obtain ⟨w, rfl, hstep⟩ := Option.bind_eq_some_iff.1 hinner
      have hw : c.runner.workerAt? place = some w := by
        rw [h.runner]
        exact Runner.workerAt?_eq_some.2 (List.mk_mem_zipIdx_iff_getElem?.1 hseat)
      exact ⟨.step (.place place) clock :: _,
        h.act clock (f := Worker.step clock) (fun w act hact => Worker.moves_step hact) hw hstep⟩
    · split at hact
      · rename_i hdue
        cases hact
        exact ⟨[.deadline clock], h.deadline hdue⟩
      · cases hact

/-- An answer for a worker that is not there changes nothing. -/
theorem Mirrors.answer {s : ChainRun σ} (h : Mirrors s c) (clock : Clock) (place : Nat)
    {f : Worker → Act σ Worker} (hf : ∀ w : Worker, w.Moves (f w)) {m : Move σ}
    (hm : c.move m = c.act (.place place) fun w => some (f w)) :
    ∃ moves, Mirrors (s.perform (s.runner.answer clock place f)) (c.run moves) := by
  cases hw : s.runner.workerAt? place with
  | none =>
      refine ⟨[], ?_⟩
      rw [Runner.answer]
      simp only [hw]
      exact h
  | some w =>
      have hmoved := h.act clock (f := fun w => some (f w)) (fun w act hact => Option.some.inj hact ▸ hf w)
        (h.runner ▸ hw) rfl
      rw [← hm] at hmoved
      refine ⟨m :: handOver clock ((f w).run c.shared).2.outbox, ?_⟩
      rw [Runner.answer]
      simp only [hw]
      exact hmoved

theorem Mirrors.move {s : ChainRun σ} (h : Mirrors s c) (m : ChainRun.Move σ) :
    ∃ moves, Mirrors (s.move m) (c.run moves) := by
  cases m with
  | step clock =>
      cases hstep : s.runner.step (σ := σ) clock with
      | none =>
          rw [ChainRun.move, hstep]
          exact ⟨[], h⟩
      | some act =>
          rw [ChainRun.move, hstep]
          exact h.step hstep
  | answerEntities answer => exact ⟨[.answerEntities answer], h.answerEntities answer⟩
  | answerTip clock place answer =>
      exact h.answer clock place (fun w => w.moves_answerTip answer) (m := .answerTip (.place place) clock answer) rfl
  | answerFetch clock place batch answer =>
      exact h.answer clock place (fun w => w.moves_answerFetch batch answer)
        (m := .answerFetch (.place place) clock batch answer) rfl
  | requestShutdown => exact ⟨[.requestShutdown], h.requestShutdown⟩
  | meanwhile gate => exact ⟨[.meanwhile { c.shared with gate }], h.meanwhile gate⟩

/-- Whatever state a runner comes to by its own schedule, its tasks come to in some order of their moves. -/
theorem exists_moves_of_chainRun {setup : Setup} {costs : CallCosts} {timer : Nat} {s shared : Shared σ} {r : Runner}
    (hstart : (Runner.start setup costs timer).run s = (.ok r, shared)) (hempty : shared.outbox = [])
    (moves : List (ChainRun.Move σ)) : ∃ moves' : List (Move σ),
      ((start r shared).run moves').runner = ((ChainRun.mk r shared).run moves).runner ∧
      ((start r shared).run moves').shared = ((ChainRun.mk r shared).run moves).shared := by
  suffices h : ∀ (s : ChainRun σ) (c : Crew σ), Mirrors s c → ∃ moves', Mirrors (s.run moves) (c.run moves') by
    have horderly := orderly_start hstart
    obtain ⟨sharing, -, rfl⟩ := eq_of_start hstart
    have hmirrors : Mirrors ⟨_, shared⟩ (start _ shared) := ⟨horderly, rfl, rfl, hempty, rfl, rfl, rfl, fun _ => rfl⟩
    obtain ⟨moves', hmoves⟩ := h _ _ hmirrors
    exact ⟨moves', hmoves.runner, hmoves.shared⟩
  induction moves with
  | nil => exact fun s c h => ⟨[], h⟩
  | cons m moves ih =>
      intro s c h
      obtain ⟨first, hfirst⟩ := h.move m
      obtain ⟨later, hlater⟩ := ih _ _ hfirst
      refine ⟨first ++ later, ?_⟩
      rw [run, List.foldl_append]
      exact hlater

end Crew

end Backfill
