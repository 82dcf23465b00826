import Backfill.Proofs.Pass.Closing
import Backfill.Proofs.Runner.Record

/-!
# Nothing is left behind when a runner returns

Workers that the runner has let go of have ended, and whoever has outcomes to send is still at its place and in a
pass. So when the table is empty nobody has anything to send. The updater ends after that with the channel empty,
and by then it has merged all that entered the channel, each outcome once.
-/

namespace Backfill

namespace Crew

variable {σ : Type} {c : Crew σ} {clock : Clock}

/-! ## Invariants -/

/-- Whom the runner has let go of has ended, and whoever has outcomes to send is in a pass. -/
structure Manned (c : Crew σ) : Prop where
  adrift : ∀ w ∈ c.adrift, w.result?.isSome = true
  owing : ∀ p ∈ c.unsent, ∃ w, c.workerAt? p.1 = some w ∧ w.isFetching = true

/-- With some outcomes in the updater's hand, all that was sent is merged, in its group or on its way to it, in
this order, and all that was brought is sent or still to be sent. -/
structure Ledger (hand : List (Outcome UInt64)) (c : Crew σ) : Prop where
  oneKey : OneKey c.runner.updater.group
  mergeable : Mergeable c.merged
  flow : c.merged.flatten ++ c.runner.updater.group ++ hand ++ c.channel = c.sent
  brought : (c.sent ++ c.unsent.map (·.2)).Perm c.brought

/-- How far the runner's way out is gone. -/
structure Leaving (c : Crew σ) : Prop where
  stopping : ∀ result, c.runner.stage = .stopping result → Runner.StopsFor c.runner.shutdown result
  hungUp : c.hungUp = true → c.runner.Deserted ∧
    ((∃ result, c.runner.stage = .stopping result) ∨ c.runner.result?.isSome = true)
  closed : c.updaterEnded = true → c.hungUp = true ∧ c.channel = [] ∧ c.runner.updater.group = []
  ended : ∀ result, c.runner.result? = some result → c.updaterEnded = true ∧ Runner.StopsFor c.runner.shutdown result

structure Orderly (c : Crew σ) : Prop where
  manned : Manned c
  ledger : Ledger [] c
  leaving : Leaving c

theorem Manned.unsent_eq_nil (h : Manned c) (hdeserted : c.runner.Deserted) : c.unsent = [] := by
  rw [List.eq_nil_iff_forall_not_mem]
  rintro ⟨seat, o⟩ hp
  obtain ⟨w, hw, hfetching⟩ := h.owing _ hp
  cases seat with
  | place place =>
      rw [workerAt?, hdeserted place] at hw
      cases hw
  | adrift number =>
      rw [Worker.isFetching_of_result? (h.adrift w (List.mem_of_getElem? hw))] at hfetching
      cases hfetching

/-! ## The runner -/

/-- Another runner may take over whose updater has the same group and whose workers in passes are at their places. -/
theorem Manned.over (h : Manned c) {runner : Runner} (shared : Shared σ)
    (hseats : ∀ place w, c.runner.workerAt? place = some w → w.isFetching = true →
      ∃ w', runner.workerAt? place = some w' ∧ w'.isFetching = true) : Manned { c with runner, shared } where
  adrift := h.adrift
  owing := by
    rintro ⟨seat, o⟩ hp
    obtain ⟨w, hw, hfetching⟩ := h.owing _ hp
    cases seat with
    | place place => exact hseats place w hw hfetching
    | adrift number => exact ⟨w, hw, hfetching⟩

theorem Ledger.over {hand : List (Outcome UInt64)} (h : Ledger hand c) {runner : Runner} (shared : Shared σ)
    (hupdater : runner.updater = c.runner.updater) : Ledger hand { c with runner, shared } where
  oneKey := hupdater ▸ h.oneKey
  mergeable := h.mergeable
  flow := by
    change c.merged.flatten ++ runner.updater.group ++ hand ++ c.channel = c.sent
    rw [hupdater]
    exact h.flow
  brought := h.brought

/-- Before it hangs up the runner may do as it likes, but not end or stop without a reason. -/
theorem Leaving.over (h : Leaving c) (hhanging : c.hungUp = false) {runner : Runner} (shared : Shared σ)
    (hrunning : runner.result? = none)
    (hstopping : ∀ result, runner.stage = .stopping result → Runner.StopsFor runner.shutdown result) :
    Leaving { c with runner, shared } where
  stopping := hstopping
  hungUp hup := by
    rw [hhanging] at hup
    cases hup
  closed hclosed := by
    have hup := (h.closed hclosed).1
    rw [hhanging] at hup
    cases hup
  ended result hresult := by
    rw [hrunning] at hresult
    cases hresult

theorem letGo_eq (c : Crew σ) (place : Nat) : ∃ adrift unsent,
    c.letGo place = { c with adrift, unsent } ∧ unsent.map (·.2) = c.unsent.map (·.2) := by
  rw [letGo]
  split
  · exact ⟨_, _, rfl, rfl⟩
  · exact ⟨_, _, rfl, by rw [List.map_map]; rfl⟩

theorem Manned.letGo (h : Manned c) {place : Nat}
    (hdone : ∀ w, c.runner.workerAt? place = some w → w.result?.isSome = true) : Manned (c.letGo place) := by
  cases hw : c.runner.workerAt? place with
  | none =>
      simp only [Crew.letGo, hw]
      exact h
  | some w =>
      -- whoever has ended has nothing to send, so no outcome changes its seat
      have hunsent : (c.unsent.map fun p =>
          (if p.1 = .place place then Seat.adrift c.adrift.length else p.1, p.2)) = c.unsent := by
        refine (List.map_congr_left fun p hp => ?_).trans (List.map_id _)
        rw [if_neg]
        · rfl
        · intro hseat
          obtain ⟨w', hw', hfetching⟩ := h.owing p hp
          rw [hseat, workerAt?, hw] at hw'
          cases hw'
          rw [Worker.isFetching_of_result? (hdone w hw)] at hfetching
          cases hfetching
      simp only [Crew.letGo, hw]
      refine ⟨fun w' hw' => ?_, fun p hp => ?_⟩
      · rcases List.mem_append.1 hw' with hw' | hw'
        · exact h.adrift w' hw'
        · rw [List.mem_singleton.1 hw']
          exact hdone w hw
      · rw [hunsent] at hp
        obtain ⟨w', hw', hfetching⟩ := h.owing p hp
        refine ⟨w', ?_, hfetching⟩
        cases hseat : p.1 with
        | place other =>
            rw [hseat] at hw'
            exact hw'
        | adrift number =>
            rw [hseat] at hw'
            exact (List.getElem?_append_left (List.getElem?_eq_some_iff.1 hw').1).trans hw'

theorem Orderly.letGo (h : Orderly c) {place : Nat}
    (hdone : ∀ w, c.runner.workerAt? place = some w → w.result?.isSome = true) : Orderly (c.letGo place) := by
  have hmanned := h.manned.letGo hdone
  obtain ⟨adrift, unsent, heq, hsame⟩ := letGo_eq c place
  rw [heq] at hmanned ⊢
  exact ⟨hmanned, ⟨h.ledger.oneKey, h.ledger.mergeable, h.ledger.flow, hsame ▸ h.ledger.brought⟩,
    ⟨h.leaving.stopping, h.leaving.hungUp, h.leaving.closed, h.leaving.ended⟩⟩

theorem hungUp_of_stepSelf (h : Leaving c) (hlast : c.runner.isLast = false) {act : Act σ Runner}
    (hact : c.runner.stepSelf clock = some act) : c.hungUp = false := by
  by_contra hup
  rw [Bool.not_eq_false] at hup
  obtain ⟨hdeserted, hstopping | hended⟩ := h.hungUp hup
  · rw [Runner.isLast_iff.2 ⟨hstopping, hdeserted⟩] at hlast
    cases hlast
  · rw [Runner.result?_of_stepSelf hact] at hended
    cases hended

theorem fetching_of_own {r r' : Runner} {s s' : Shared σ} (h : Runner.Own r s r' s') {place : Nat} {w : Worker}
    (hw : r.workerAt? place = some w) (hfetching : w.isFetching = true) :
    ∃ w', r'.workerAt? place = some w' ∧ w'.isFetching = true := by
  by_cases hplace : r.vacates? = some place
  · rw [Worker.isFetching_of_result? ((hplace ▸ h.table).done hw)] at hfetching
    cases hfetching
  · rcases h.table.workerAt? hplace with hsame | ⟨w', hw', hstopped⟩
    · exact ⟨w, hsame.trans hw, hfetching⟩
    · rw [hw] at hw'
      cases hw'
      exact ⟨w.stop, hstopped, hfetching⟩

theorem Orderly.perform (h : Orderly c) (hhanging : c.hungUp = false) {act : Act σ Runner}
    (hown : ∀ s, Runner.Own c.runner s (act.run s).1 (act.run s).2) : Orderly (c.perform act) := by
  have hthis := hown { c.shared with log := #[] }
  refine ⟨h.manned.over _ fun place w => fetching_of_own hthis, h.ledger.over _ hthis.updater,
    h.leaving.over hhanging _ hthis.running fun result hresult => ?_⟩
  change Runner.StopsFor (act.run { c.shared with log := #[] }).1.shutdown result
  rw [hthis.shutdown]
  exact (hthis.stopping result hresult).elim (h.leaving.stopping result) id

theorem Orderly.own (h : Orderly c) (clock : Clock) : Orderly (c.own clock) := by
  rw [Crew.own]
  split
  · exact h
  · rename_i hlast
    rw [Bool.not_eq_true] at hlast
    split
    · exact h
    · rename_i act hact
      have hhanging := hungUp_of_stepSelf h.leaving hlast hact
      have hown := fun s => Runner.own_stepSelf hlast hact s
      cases hvacates : c.runner.vacates? with
      | none => exact h.perform hhanging hown
      | some place =>
          have hgone := h.letGo fun w hw => (hvacates ▸ (hown c.shared).table).done hw
          obtain ⟨adrift, unsent, heq, -⟩ := letGo_eq c place
          rw [Option.elim_some]
          rw [heq] at hgone ⊢
          exact hgone.perform hhanging hown

/-- Before the runner stops it may go on to any stage in which it does not. -/
theorem Orderly.turn (h : Orderly c) (hrunning : c.runner.result? = none)
    (hgoing : ∀ result, c.runner.stage ≠ .stopping result) {stage : RunnerStage} (shared : Shared σ)
    (hstage : ∀ result, stage ≠ .stopping result ∧ stage ≠ .ended result) :
    Orderly { c with runner := { c.runner with stage }, shared } := by
  have hhanging : c.hungUp = false := by
    by_contra hup
    rw [Bool.not_eq_false] at hup
    rcases (h.leaving.hungUp hup).2 with ⟨result, hstopping⟩ | hended
    · exact hgoing result hstopping
    · rw [hrunning] at hended
      cases hended
  refine ⟨h.manned.over _ fun place w hw hfetching => ⟨w, hw, hfetching⟩, h.ledger.over _ rfl,
    h.leaving.over hhanging _ ?_ fun result hresult => absurd hresult (hstage result).1⟩
  rw [Runner.result?]
  split
  · rename_i result hended
    exact absurd hended (hstage result).2
  · rfl

theorem Orderly.poll (h : Orderly c) (clock : Clock) : Orderly (c.poll clock) := by
  rw [Crew.poll]
  split
  · rename_i poll hstage
    split
    · exact h.turn (by rw [Runner.result?, hstage]) (by simp [hstage]) c.shared (by simp)
    · exact h
  · exact h

theorem Orderly.meanwhile (h : Orderly c) (shared : Shared σ) : Orderly { c with shared } :=
  ⟨⟨h.manned.adrift, h.manned.owing⟩, ⟨h.ledger.oneKey, h.ledger.mergeable, h.ledger.flow, h.ledger.brought⟩,
    ⟨h.leaving.stopping, h.leaving.hungUp, h.leaving.closed, h.leaving.ended⟩⟩

theorem Orderly.answerEntities (h : Orderly c) (answer : Except String (List Entity)) :
    Orderly (c.answerEntities answer) := by
  have hheard := (Runner.heard_answerEntities answer c.runner c.shared).1
  rw [Crew.answerEntities]
  generalize (c.runner.answerEntities answer).run c.shared = heard at hheard
  obtain ⟨runner, shared⟩ := heard
  cases hheard with
  | ignored => exact h.meanwhile shared
  | counted hpolling hstage =>
      exact h.turn (by rw [Runner.result?, hpolling]) (by simp [hpolling]) shared hstage

/-! ## The workers -/

theorem workerAt?_setWorker {seat : Seat} {w : Worker} (hw : c.workerAt? seat = some w) (next : Worker) (other : Seat) :
    (c.setWorker next seat).workerAt? other = if seat = other then some next else c.workerAt? other := by
  cases seat with
  | place place =>
      have hlt : place < c.runner.workers.length :=
        (List.getElem?_eq_some_iff.1 (Runner.workerAt?_eq_some.1 hw)).1
      cases other with
      | place other =>
          simp only [setWorker, workerAt?, Runner.workerAt?_setWorker, hlt, and_true, Seat.place.injEq]
      | adrift number => simp [setWorker, workerAt?]
  | adrift number =>
      have hlt := (List.getElem?_eq_some_iff.1 hw).1
      cases other with
      | place other => simp [setWorker, workerAt?]
      | adrift other => simp [setWorker, workerAt?, List.getElem?_set, hlt]

/-- A worker that goes on in its pass or has nothing to send may make a move. -/
theorem Manned.seated (h : Manned c) {seat : Seat} {w next : Worker} {shared : Shared σ}
    (hw : c.workerAt? seat = some w) (hended : w.result?.isSome = true → next.result?.isSome = true)
    (hnext : next.isFetching = true ∨ (shared.outbox = [] ∧ c.owes seat = false)) :
    Manned (c.seated seat next shared) where
  adrift := by
    cases seat with
    | place place => exact h.adrift
    | adrift number =>
        intro w' hw'
        rcases List.mem_or_eq_of_mem_set hw' with hw' | rfl
        · exact h.adrift w' hw'
        · exact hended (h.adrift w (List.mem_of_getElem? hw))
  owing := by
    intro p hp
    change ∃ w', (c.setWorker next seat).workerAt? p.1 = some w' ∧ w'.isFetching = true
    rw [workerAt?_setWorker hw]
    by_cases hseat : seat = p.1
    · rw [if_pos hseat]
      refine ⟨next, rfl, hnext.resolve_right ?_⟩
      rintro ⟨hnone, howes⟩
      have hp : p ∈ c.unsent ++ shared.outbox.map (seat, ·) := hp
      rw [hnone, List.map_nil, List.append_nil] at hp
      rw [owes, List.any_eq_false] at howes
      exact howes p hp (beq_iff_eq.2 hseat.symm)
    · rw [if_neg hseat]
      rcases List.mem_append.1 hp with hp | hp
      · exact h.owing p hp
      · obtain ⟨o, -, rfl⟩ := List.mem_map.1 hp
        exact absurd rfl hseat

theorem Ledger.seated {hand : List (Outcome UInt64)} (h : Ledger hand c) (seat : Seat) (next : Worker)
    (shared : Shared σ) : Ledger hand (c.seated seat next shared) := by
  have hbrought : (c.sent ++ (c.unsent ++ shared.outbox.map (seat, ·)).map (·.2)).Perm
      (c.brought ++ shared.outbox) := by
    have houtbox : (shared.outbox.map (seat, ·)).map (·.2) = shared.outbox := by
      rw [List.map_map]
      exact List.map_id _
    rw [List.map_append, houtbox, ← List.append_assoc]
    exact h.brought.append_right _
  cases seat with
  | place place => exact ⟨h.oneKey, h.mergeable, h.flow, hbrought⟩
  | adrift number => exact ⟨h.oneKey, h.mergeable, h.flow, hbrought⟩

theorem Leaving.seated (h : Leaving c) {seat : Seat} {w : Worker} (hw : c.workerAt? seat = some w) (next : Worker)
    (shared : Shared σ) : Leaving (c.seated seat next shared) := by
  cases seat with
  | place place =>
      refine ⟨h.stopping, fun hup => ?_, h.closed, h.ended⟩
      rw [workerAt?, (h.hungUp hup).1 place] at hw
      cases hw
  | adrift number => exact ⟨h.stopping, h.hungUp, h.closed, h.ended⟩

theorem Orderly.act (h : Orderly c) (seat : Seat) {f : Worker → Option (Act σ Worker)}
    (hf : ∀ w act, f w = some act → w.Moves act) : Orderly (c.act seat f) := by
  rw [Crew.act]
  split
  · exact h
  · rename_i act hact
    obtain ⟨w, hw, hact⟩ := Option.bind_eq_some_iff.1 hact
    have hmoves := hf w act hact
    split
    · exact h
    · rename_i hfree
      rw [Bool.and_eq_true, Bool.not_eq_true', not_and, Bool.not_eq_false] at hfree
      refine ⟨h.manned.seated hw (fun hended => hmoves.ended hended _) ?_, h.ledger.seated seat _ _,
        h.leaving.seated hw _ _⟩
      by_cases howes : c.owes seat = true
      · exact Or.inl (hfree howes)
      -- who had nothing to send has something now only if its pass goes on
      · rcases hmoves.brings { c.shared with outbox := [] } with hnone | hfetching
        · exact Or.inr ⟨hnone, Bool.eq_false_of_not_eq_true howes⟩
        · exact Or.inl hfetching

/-! ## The channel and the updater -/

/-- While the updater takes outcomes, the runner's way out does not depend on what flows. -/
theorem Leaving.flowing {c' : Crew σ} (h : Leaving c) (hopen : c.updaterEnded = false)
    (hrunner : ∃ updater, c'.runner = { c.runner with updater }) (hup : c'.hungUp = c.hungUp)
    (hended : c'.updaterEnded = false) : Leaving c' := by
  obtain ⟨updater, hrunner⟩ := hrunner
  refine ⟨?_, ?_, ?_, ?_⟩
  · rw [hrunner]
    exact h.stopping
  · rw [hrunner, hup]
    exact h.hungUp
  · rw [hended]
    nofun
  · rw [hrunner]
    intro result hresult
    rw [(h.ended result hresult).1] at hopen
    cases hopen

theorem Orderly.send (h : Orderly c) (number : Nat) : Orderly (c.send number) := by
  rw [Crew.send]
  split
  · exact h
  · rename_i seat o ho
    -- when the updater has ended nobody is left to send
    have hopen : c.updaterEnded = false := by
      by_contra hended
      rw [Bool.not_eq_false] at hended
      have hdeserted := (h.leaving.hungUp (h.leaving.closed hended).1).1
      rw [h.manned.unsent_eq_nil hdeserted] at ho
      cases ho
    rw [if_neg (hopen ▸ Bool.false_ne_true)]
    split
    · refine ⟨⟨h.manned.adrift, fun p hp => h.manned.owing p (List.mem_of_mem_eraseIdx hp)⟩,
        ⟨h.ledger.oneKey, h.ledger.mergeable, ?_, ?_⟩, h.leaving.flowing hopen ⟨_, rfl⟩ rfl hopen⟩
      · change c.merged.flatten ++ c.runner.updater.group ++ [] ++ (c.channel ++ [o]) = c.sent ++ [o]
        rw [← h.ledger.flow, List.append_assoc _ c.channel]
      · obtain ⟨hlt, hget⟩ := List.getElem?_eq_some_iff.1 ho
        have herased := (List.getElem_cons_eraseIdx_perm hlt).map (·.2)
        rw [hget, List.map_cons] at herased
        change (c.sent ++ [o] ++ (c.unsent.eraseIdx number).map (·.2)).Perm c.brought
        rw [List.append_assoc, List.singleton_append]
        exact (herased.append_left c.sent).trans h.ledger.brought
    · exact h

/-- The updater merges what it was told, and keeps the rest. -/
theorem Ledger.tell (clock : Clock) (event : UpdaterEvent UInt64) (h : Ledger event.outcomes c) :
    Ledger [] (c.tell clock event) := by
  obtain ⟨hgroup, hgroups⟩ := Updater.oneKey_step c.runner.limits clock.timer h.oneKey event
  refine ⟨hgroup, fun group hg => (List.mem_append.1 hg).elim (h.mergeable group) (hgroups group), ?_, h.brought⟩
  change (c.merged ++ (c.runner.updater.step c.runner.limits clock.timer event).2).flatten ++
    (c.runner.updater.step c.runner.limits clock.timer event).1.group ++ [] ++ c.channel = c.sent
  rw [List.flatten_append, List.append_nil, List.append_assoc c.merged.flatten, Updater.flatten_step,
    ← List.append_assoc]
  exact h.flow

theorem Manned.tell (h : Manned c) (clock : Clock) (event : UpdaterEvent UInt64) : Manned (c.tell clock event) :=
  ⟨h.adrift, (h.over _ fun _ w hw hfetching => ⟨w, hw, hfetching⟩).owing⟩

theorem Orderly.receive (h : Orderly c) (clock : Clock) : Orderly (c.receive clock) := by
  rw [Crew.receive]
  split
  · rename_i o channel hopen hchannel
    have hmanned : Manned { c with channel } := ⟨h.manned.adrift, h.manned.owing⟩
    have hledger : Ledger [o] { c with channel } := by
      refine ⟨h.ledger.oneKey, h.ledger.mergeable, ?_, h.ledger.brought⟩
      change c.merged.flatten ++ c.runner.updater.group ++ [o] ++ channel = c.sent
      rw [← h.ledger.flow, hchannel, List.append_nil, List.append_assoc, List.singleton_append]
    exact ⟨hmanned.tell clock _, hledger.tell clock (.outcome o), h.leaving.flowing hopen ⟨_, rfl⟩ rfl hopen⟩
  · exact h

theorem Orderly.deadline (h : Orderly c) (clock : Clock) : Orderly (c.deadline clock) := by
  rw [Crew.deadline]
  split
  · rename_i hdue
    rw [Bool.and_eq_true, Bool.not_eq_true'] at hdue
    exact ⟨h.manned.tell clock _, h.ledger.tell clock .deadline, h.leaving.flowing hdue.1 ⟨_, rfl⟩ rfl hdue.1⟩
  · exact h

/-! ## The way out -/

theorem Orderly.hangUp (h : Orderly c) : Orderly c.hangUp := by
  rw [Crew.hangUp]
  split
  · rename_i hlast
    obtain ⟨hstopping, hdeserted⟩ := Runner.isLast_iff.1 hlast
    exact ⟨⟨h.manned.adrift, h.manned.owing⟩,
      ⟨h.ledger.oneKey, h.ledger.mergeable, h.ledger.flow, h.ledger.brought⟩,
      ⟨h.leaving.stopping, fun _ => ⟨hdeserted, Or.inl hstopping⟩,
        fun hended => ⟨rfl, (h.leaving.closed hended).2⟩, h.leaving.ended⟩⟩
  · exact h

theorem Orderly.close (h : Orderly c) (clock : Clock) : Orderly (c.close clock) := by
  rw [Crew.close]
  split
  · rename_i hgone
    simp only [Bool.and_eq_true, Bool.not_eq_true', List.isEmpty_iff] at hgone
    obtain ⟨⟨⟨hup, hopen⟩, hempty⟩, -⟩ := hgone
    have hmanned := h.manned.tell clock .closed
    have hledger := h.ledger.tell clock .closed
    exact ⟨⟨hmanned.adrift, hmanned.owing⟩, ⟨hledger.oneKey, hledger.mergeable, hledger.flow, hledger.brought⟩,
      ⟨h.leaving.stopping, h.leaving.hungUp, fun _ => ⟨hup, hempty, rfl⟩,
        fun result hresult => ⟨rfl, (h.leaving.ended result hresult).2⟩⟩⟩
  · exact h

/-- The runner ends after the updater, which has nothing left to merge then. -/
theorem Orderly.leave (h : Orderly c) (clock : Clock) : Orderly (c.leave clock) := by
  rcases leave_cases c clock with hstays | ⟨result, ⟨hlast, hup, hended⟩, hstage, hleaves⟩
  · rw [hstays]
    exact h
  · have hdeserted := (Runner.isLast_iff.1 hlast).2
    have hmanned := h.manned.tell clock .closed
    have hledger := h.ledger.tell clock .closed
    have hreason := h.leaving.stopping result hstage
    rw [hleaves]
    refine ⟨⟨hmanned.adrift, hmanned.owing⟩, ⟨hledger.oneKey, hledger.mergeable, hledger.flow, hledger.brought⟩,
      ⟨fun _ hstage => (by cases hstage), fun _ => ⟨hdeserted, Or.inr rfl⟩,
        fun _ => ⟨hup, (h.leaving.closed hended).2.1, rfl⟩, fun other hother => ⟨hended, ?_⟩⟩⟩
    cases hother
    exact hreason

theorem Orderly.requestShutdown (h : Orderly c) :
    Orderly { c with runner := c.runner.requestShutdown, adrift := c.adrift.map Worker.stop } := by
  have hreason : ∀ result, Runner.StopsFor c.runner.shutdown result → Runner.StopsFor true result :=
    fun result hstops => hstops.imp_left fun hok => ⟨hok.1, rfl⟩
  refine ⟨⟨fun w hw => ?_, fun p hp => ?_⟩, ⟨h.ledger.oneKey, h.ledger.mergeable, h.ledger.flow, h.ledger.brought⟩,
    ⟨fun result hstage => hreason result (h.leaving.stopping result hstage), fun hup => ?_, h.leaving.closed,
      fun result hresult => (h.leaving.ended result hresult).imp_right (hreason result)⟩⟩
  · obtain ⟨w', hw', rfl⟩ := List.mem_map.1 hw
    exact h.manned.adrift w' hw'
  · obtain ⟨w, hw, hfetching⟩ := h.manned.owing p hp
    refine ⟨w.stop, ?_, hfetching⟩
    cases hseat : p.1 with
    | place place =>
        rw [hseat, workerAt?] at hw
        simp only [workerAt?, Runner.workerAt?_requestShutdown, hw, Option.map_some]
    | adrift number =>
        rw [hseat, workerAt?] at hw
        simp only [workerAt?, List.getElem?_map, hw, Option.map_some]
  · obtain ⟨hdeserted, hway⟩ := h.leaving.hungUp hup
    refine ⟨fun place => ?_, hway⟩
    simp only [Runner.workerAt?_requestShutdown, hdeserted place, Option.map_none]

theorem Orderly.workers_ended (h : Orderly c) (hdeserted : c.runner.Deserted) :
    ∀ w ∈ c.workers, w.result?.isSome = true := by
  intro w hw
  rcases List.mem_append.1 hw with hw | hw
  · obtain ⟨seat, hseat, rfl⟩ := List.mem_filterMap.1 hw
    obtain ⟨place, hplace⟩ := List.getElem?_of_mem hseat
    have hnone := hdeserted place
    rw [Runner.workerAt?_eq_some.2 hplace] at hnone
    cases hnone
  · exact h.manned.adrift w hw

/-! ## Runs -/

variable [LockService σ]

theorem Orderly.move (h : Orderly c) (m : Move σ) : Orderly (c.move m) := by
  cases m with
  | own clock => exact h.own clock
  | poll clock => exact h.poll clock
  | answerEntities answer => exact h.answerEntities answer
  | step seat clock => exact h.act seat fun w act hact => Worker.moves_step hact
  | answerTip seat clock answer =>
      exact h.act seat fun w act hact => Option.some.inj hact ▸ w.moves_answerTip answer
  | answerFetch seat clock batch answer =>
      exact h.act seat fun w act hact => Option.some.inj hact ▸ w.moves_answerFetch batch answer
  | send number => exact h.send number
  | receive clock => exact h.receive clock
  | deadline clock => exact h.deadline clock
  | hangUp => exact h.hangUp
  | close clock => exact h.close clock
  | leave clock => exact h.leave clock
  | requestShutdown => exact h.requestShutdown
  | meanwhile shared => exact h.meanwhile shared

theorem Orderly.run (h : Orderly c) (moves : List (Move σ)) : Orderly (c.run moves) := by
  induction moves generalizing c with
  | nil => exact h
  | cons m moves ih => exact ih (h.move m)

omit [LockService σ] in
theorem eq_of_start {setup : Setup} {costs : CallCosts} {timer : Nat} {s shared : Shared σ} {r : Runner}
    (h : (Runner.start setup costs timer).run s = (.ok r, shared)) :
    ∃ sharing, Sharing.ofEndpoints setup.endpoints = .ok sharing ∧
      r = { setup, costs, sharing, stage := .waiting timer, workers := setup.endpoints.map fun _ => none } := by
  cases hsharing : Sharing.ofEndpoints setup.endpoints with
  | error e =>
      simp only [Runner.start, hsharing] at h
      cases h
  | ok sharing =>
      simp only [Runner.start, hsharing] at h
      split at h
      · cases h
        exact ⟨sharing, rfl, rfl⟩
      · cases h
        exact ⟨sharing, rfl, rfl⟩

omit [LockService σ] in
theorem orderly_start {setup : Setup} {costs : CallCosts} {timer : Nat} {s shared : Shared σ} {r : Runner}
    (h : (Runner.start setup costs timer).run s = (.ok r, shared)) : Orderly (start r shared) := by
  obtain ⟨sharing, -, rfl⟩ := eq_of_start h
  refine ⟨⟨by simp [start], by simp [start]⟩, ⟨?_, by simp [start, Mergeable], ?_, .refl _⟩,
    ⟨?_, nofun, nofun, ?_⟩⟩
  · simp [start, OneKey]
  · simp [start]
  · simp [start]
  · simp [start, Runner.result?]

/-- Everything that was begun has come to its end, and all outcomes were merged. -/
structure Settled (c : Crew σ) : Prop where
  workers : ∀ w ∈ c.workers, w.result?.isSome = true
  updater : c.updaterEnded = true
  unsent : c.unsent = []
  channel : c.channel = []
  /-- Each outcome that was sent is in one group, at one place. -/
  merged : c.merged.flatten = c.sent
  groups : Mergeable c.merged
  brought : c.sent.Perm c.brought

/-- When the runner has returned, whatever the order of moves was, every worker that was started at any time has
ended, and so has the updater, which has merged every outcome that a worker brought exactly once. The runner returns
because it was requested to shut down or because a worker met an error of configuration. -/
theorem return_leaves_nothing_behind {setup : Setup} {costs : CallCosts} {timer : Nat} {s shared : Shared σ}
    {r : Runner} (hstart : (Runner.start setup costs timer).run s = (.ok r, shared)) (moves : List (Move σ))
    {result : Except IndexerError Unit} (hresult : ((start r shared).run moves).runner.result? = some result) :
    Settled ((start r shared).run moves) ∧
    (∀ before after, moves = before ++ after →
      ((start r shared).run before).assignments.Subperm ((start r shared).run moves).assignments) ∧
    Runner.StopsFor ((start r shared).run moves).runner.shutdown result := by
  have h := (orderly_start hstart).run moves
  obtain ⟨hended, hreason⟩ := h.leaving.ended result hresult
  obtain ⟨hup, hempty, hgroup⟩ := h.leaving.closed hended
  have hdeserted := (h.leaving.hungUp hup).1
  have hunsent := h.manned.unsent_eq_nil hdeserted
  have hflow := h.ledger.flow
  have hbrought := h.ledger.brought
  rw [hgroup, hempty, List.append_nil, List.append_nil, List.append_nil] at hflow
  rw [hunsent, List.map_nil, List.append_nil] at hbrought
  refine ⟨⟨h.workers_ended hdeserted, hended, hunsent, hempty, hflow, h.ledger.mergeable, hbrought⟩, ?_, hreason⟩
  rintro before after rfl
  have hrun : (start r shared).run (before ++ after) = ((start r shared).run before).run after := List.foldl_append
  rw [hrun]
  exact assignments_run _ after

/-- One provider, with the full history. -/
def loneProvider : Setup :=
  { Feed.youngPoolAssignment.setup with
    endpoints := [{ Feed.youngPoolAssignment.endpoint with limitations := { minDelay := .noLimit, archive := true } }] }

def loneRunner : Runner where
  setup := loneProvider
  costs := []
  sharing := ⟨⟨[(0, ⟨1, 10000⟩)], 10000⟩, some ⟨[(0, ⟨1, 10000⟩)], 10000⟩⟩
  stage := .waiting 0
  workers := [none]

/-- A shutdown is requested while a batch is under way. Some moves come too early to do anything: the end of the
pass before its outcome is sent, and the ends of the updater and the runner before it is received. -/
def lateOutcome : List (Move Locks) :=
  let clock : Clock := ⟨Timestamp.epoch, 0⟩
  let seat : Seat := .place 0
  [.own clock, .answerEntities (.ok [Plan.youngPool]), .own clock, .own clock,
    .step seat clock, .step seat clock, .step seat clock, .answerTip seat clock (.ok 6),
    .step seat clock, .step seat clock, .step seat clock, .answerFetch seat clock 0 (.ok [.ok ()]),
    .requestShutdown, .own clock, .step seat clock, .step seat clock, .send 0, .step seat clock, .step seat clock,
    .own clock, .hangUp, .close clock, .leave clock, .receive clock, .close clock, .leave clock]

theorem return_leaves_nothing_behind_lateOutcome :
    ∃ shared, (Runner.start loneProvider [] 0).run Feed.youngPoolShared = (.ok loneRunner, shared) ∧
      Settled ((start loneRunner shared).run lateOutcome) ∧
      ((start loneRunner shared).run lateOutcome).merged = [[⟨"pool", ⟨5, 6⟩, true⟩]] := by
  let shared := ((Runner.start loneProvider [] 0).run Feed.youngPoolShared).2
  have hstart : (Runner.start loneProvider [] 0).run Feed.youngPoolShared = (.ok loneRunner, shared) :=
    Prod.ext rfl rfl
  have hended : ((start loneRunner shared).run lateOutcome).runner.result?.isSome = true := by decide +kernel
  have hmerged : ((start loneRunner shared).run lateOutcome).merged = [[⟨"pool", ⟨5, 6⟩, true⟩]] := by
    decide +kernel
  obtain ⟨result, hresult⟩ := Option.isSome_iff_exists.1 hended
  exact ⟨shared, hstart, (return_leaves_nothing_behind hstart lateOutcome hresult).1, hmerged⟩

end Crew

end Backfill
