import Backfill.Proofs.Runner.Posts
import Backfill.Proofs.Runner.Return

/-!
# Workers from one poll to the next

Whatever the order of moves is, a worker in the table holds an assignment that is in force. Between the polls it has
the keys of the newest one, and no key is with two workers. While shares are being handed out, two workers can have
a key in common only if one is served already and the other one is not.
-/

namespace Backfill

namespace Crew

open Runner (Posted Alike)

variable {σ : Type} {c : Crew σ} {setup : Setup} {past : List Poll} {served : Nat} {clock : Clock}

/-! ## Moves -/

/-- The poll whose shares a move makes the runner hand out. -/
def heard (c : Crew σ) : Move σ → List Poll
  | .answerEntities (.ok entities) =>
    match c.runner.stage with
    | .polling _ =>
      [⟨c.shared.archiveNeeded, entities,
        c.runner.sharing.shares c.shared.archiveNeeded (Sharing.canonical entities)⟩]
    | _ => []
  | _ => []

theorem stepped_own (c : Crew σ) (clock : Clock) :
    Alike c.runner (c.own clock).runner ∨ Runner.Stepped c.runner (c.own clock).runner := by
  rw [own]
  split
  · exact Or.inl (.refl _)
  · rename_i hlast
    rw [Bool.not_eq_true] at hlast
    split
    · exact Or.inl (.refl _)
    · rename_i act hact
      exact Or.inr (Runner.stepped_stepSelf hlast hact _).1

theorem alike_act (c : Crew σ) (seat : Seat) {f : Worker → Option (Act σ Worker)}
    (hf : ∀ w act, f w = some act → w.Moves act) : Alike c.runner (c.act seat f).runner := by
  rw [act]
  split
  · exact .refl _
  · rename_i act hbind
    obtain ⟨w, hw, hact⟩ := Option.bind_eq_some_iff.1 hbind
    split
    · exact .refl _
    · cases seat with
      | place place => exact Runner.alike_setWorker hw ((hf w act hact).assignment _)
      | adrift number => exact .refl _

/-- The runner begins to hand out the shares of a poll. -/
def handOut (c : Crew σ) (poll : Nat) (entities : List Entity) : Crew σ :=
  { c with
    runner :=
      { c.runner with stage := .handing poll (c.runner.sharing.shares c.shared.archiveNeeded entities) }
    shared := ((Shared.within (Runner.span c.runner.setup) (Shared.say
      [Runner.entry .debug "Entities polled" [("entities", .count entities.length)]])).run c.shared).2 }

theorem answerEntities_of_polling {poll : Nat} (hstage : c.runner.stage = .polling poll) (entities : List Entity) :
    c.answerEntities (.ok entities) = c.handOut poll (Sharing.canonical entities) := by
  simp only [answerEntities, Runner.answerEntities, hstage, handOut]
  rfl

theorem posted_answerEntities (h : Posted setup past served c.runner) (answer : Except String (List Entity)) :
    ∃ served, Posted setup (past ++ c.heard (.answerEntities answer)) served (c.answerEntities answer).runner := by
  have hserving := h.serving
  cases hstage : c.runner.stage with
  | polling poll =>
      rw [hstage] at hserving
      cases answer with
      | error e =>
          simp only [answerEntities, Runner.answerEntities, hstage, heard, List.append_nil]
          exact ⟨served, h.turn (by simp [Runner.Going, hstage]) hserving⟩
      | ok entities =>
          rw [answerEntities_of_polling hstage]
          simp only [heard, hstage]
          exact ⟨0, h.hear hstage c.shared.archiveNeeded entities⟩
  | _ =>
      refine ⟨served, ?_⟩
      have hnone : c.heard (.answerEntities answer) = [] := by
        cases answer with
        | error e => rfl
        | ok entities => simp only [heard, hstage]
      simp only [answerEntities, Runner.answerEntities, hstage, hnone, List.append_nil]
      exact h

theorem posted_leave (h : Posted setup past served c.runner) (clock : Clock) :
    Posted setup past served (c.leave clock).runner := by
  rcases leave_cases c clock with hstays | ⟨result, -, -, hleaves⟩
  · rw [hstays]
    exact h
  · rw [hleaves]
    exact h.clear rfl rfl rfl (fun _ _ ha => ha) h.serving.le fun hgoing => (hgoing result).2 rfl

theorem posted_own (h : Posted setup past served c.runner) (clock : Clock) :
    ∃ served, Posted setup past served (c.own clock).runner := by
  rcases stepped_own c clock with halike | hstepped
  · exact ⟨served, h.of_alike halike⟩
  · exact h.stepped hstepped

theorem posted_poll (h : Posted setup past served c.runner) (clock : Clock) :
    ∃ served, Posted setup past served (c.poll clock).runner := by
  rw [poll]
  split
  · rename_i poll hstage
    split
    · exact h.stepped (.poll hstage)
    · exact ⟨served, h⟩
  · exact ⟨served, h⟩

theorem alike_send (c : Crew σ) (number : Nat) : Alike c.runner (c.send number).runner := by
  rw [send]
  split
  · exact .refl _
  · split
    · exact .refl _
    · split <;> exact .refl _

theorem alike_receive (c : Crew σ) (clock : Clock) : Alike c.runner (c.receive clock).runner := by
  rw [receive]
  split
  · exact ⟨rfl, rfl, rfl, rfl, fun _ => rfl⟩
  · exact .refl _

theorem alike_ite {p : Prop} [Decidable p] {c' : Crew σ} (h : Alike c.runner c'.runner) :
    Alike c.runner (if p then c' else c).runner := by
  split
  · exact h
  · exact .refl _

variable [LockService σ]

/-- All polls that returned a list, the oldest first. -/
def polls (c : Crew σ) : List (Move σ) → List Poll
  | [] => []
  | m :: moves => c.heard m ++ (c.move m).polls moves

theorem posted_move (h : Posted setup past served c.runner) (m : Move σ) :
    ∃ served, Posted setup (past ++ c.heard m) served (c.move m).runner := by
  have hquiet : c.heard m = [] → (∃ served, Posted setup past served (c.move m).runner) →
      ∃ served, Posted setup (past ++ c.heard m) served (c.move m).runner := by
    intro hnone hposted
    rwa [hnone, List.append_nil]
  cases m with
  | answerEntities answer => exact posted_answerEntities h answer
  | own clock => exact hquiet rfl (posted_own h clock)
  | poll clock => exact hquiet rfl (posted_poll h clock)
  | leave clock => exact hquiet rfl ⟨served, posted_leave h clock⟩
  | step seat clock =>
      exact hquiet rfl ⟨served, h.of_alike (alike_act c seat fun w act hact => Worker.moves_step hact)⟩
  | answerTip seat clock answer =>
      refine hquiet rfl ⟨served, h.of_alike (alike_act c seat fun w act hact => ?_)⟩
      exact Option.some.inj hact ▸ w.moves_answerTip answer
  | answerFetch seat clock batch answer =>
      refine hquiet rfl ⟨served, h.of_alike (alike_act c seat fun w act hact => ?_)⟩
      exact Option.some.inj hact ▸ w.moves_answerFetch batch answer
  | send number => exact hquiet rfl ⟨served, h.of_alike (alike_send c number)⟩
  | receive clock => exact hquiet rfl ⟨served, h.of_alike (alike_receive c clock)⟩
  | deadline clock | close clock => exact hquiet rfl ⟨served, h.of_alike (alike_ite ⟨rfl, rfl, rfl, rfl, fun _ => rfl⟩)⟩
  | hangUp => exact hquiet rfl ⟨served, h.of_alike (alike_ite (.refl _))⟩
  | requestShutdown => exact hquiet rfl ⟨served, h.of_alike (Runner.alike_requestShutdown _)⟩
  | meanwhile shared => exact hquiet rfl ⟨served, h⟩

theorem posted_run (h : Posted setup past served c.runner) (moves : List (Move σ)) :
    ∃ served, Posted setup (past ++ c.polls moves) served (c.run moves).runner := by
  induction moves generalizing c past served with
  | nil =>
      rw [Crew.polls, List.append_nil]
      exact ⟨served, h⟩
  | cons m moves ih =>
      obtain ⟨served, h⟩ := posted_move h m
      rw [Crew.polls, ← List.append_assoc]
      exact ih h

/-! ## The newest poll -/

variable {costs : CallCosts} {timer : Nat} {s shared : Shared σ} {r : Runner}

/-- Entities in the order of their keys are handed out as they are. -/
theorem run_answered {before after : List (Move σ)} {entities : List Entity} (poll : Nat)
    (hordered : Sharing.canonical entities = entities) (hstage : (c.run before).runner.stage = .polling poll) :
    c.run (before ++ .answerEntities (.ok entities) :: after) = ((c.run before).handOut poll entities).run after := by
  have hanswer := answerEntities_of_polling hstage entities
  rw [hordered] at hanswer
  rw [run, List.foldl_append, List.foldl_cons]
  exact congrArg (run · after) hanswer

/-- Whatever the order of moves is, some places are served with the newest poll and the others are not yet; and the
polls were shared out by the branches that the runner started with. -/
theorem posted_of_start (hstart : (Runner.start setup costs timer).run s = (.ok r, shared)) (moves : List (Move σ)) :
    (∃ served, Posted setup ((start r shared).polls moves) served ((start r shared).run moves).runner) ∧
      ∀ poll ∈ (start r shared).polls moves, poll.Fair r.sharing setup.endpoints := by
  obtain ⟨sharing, hsharing, heq⟩ := eq_of_start hstart
  have hposted : Posted setup [] setup.endpoints.length r := by
    subst heq
    exact Runner.posted_start rfl rfl hsharing rfl
  obtain ⟨served, hrun⟩ := posted_run (c := start r shared) hposted moves
  refine ⟨⟨served, hrun⟩, ?_⟩
  have hsame := hrun.sharing
  rw [hposted.sharing, Except.ok.injEq] at hsame
  exact hsame ▸ hrun.fair

theorem adrift_of_start (hstart : (Runner.start setup costs timer).run s = (.ok r, shared)) (moves : List (Move σ)) :
    ∀ w ∈ ((start r shared).run moves).adrift, w.result?.isSome = true :=
  ((orderly_start hstart).run moves).manned.adrift

/-- Workers that are not in the table have ended. Between the polls a place has a worker exactly if the newest one
gives it a share. The worker's assignment is what some poll gave its provider, all polls since
then gave that provider the same keys, and so its entities are those of the newest poll unless something else about
them has changed since that poll. -/
theorem workers_have_newest_keys (hstart : (Runner.start setup costs timer).run s = (.ok r, shared))
    (moves : List (Move σ)) :
    (∀ w ∈ ((start r shared).run moves).adrift, w.result?.isSome = true) ∧
    (∀ poll ∈ (start r shared).polls moves, poll.Fair r.sharing setup.endpoints) ∧
    (((start r shared).run moves).runner.isIdle = true →
      ∀ older newest, (start r shared).polls moves = older ++ [newest] → ∀ place < setup.endpoints.length,
        (((start r shared).run moves).workerAt? (.place place) = none ↔ newest.share place = []) ∧
        ∀ w, ((start r shared).run moves).workerAt? (.place place) = some w →
          setup.endpoints[place]? = some w.assignment.endpoint ∧
          w.assignment.InForce (older ++ [newest]) place ∧ w.importKeys = newest.keys place ∧
          ((∀ poll ∈ older, ∀ e ∈ poll.entities, ∀ e' ∈ newest.entities, e.importKey = e'.importKey → e = e') →
            w.assignment.entities = newest.share place)) := by
  obtain ⟨⟨served, hposted⟩, hfair⟩ := posted_of_start hstart moves
  refine ⟨adrift_of_start hstart moves, hfair, fun hidle older newest hpolls place hlt => ?_⟩
  obtain ⟨hserved, hgoing⟩ := hposted.of_isIdle hidle
  rw [hpolls] at hposted
  have hforce : ∀ w, ((start r shared).run moves).workerAt? (.place place) = some w →
      w.assignment.InForce (older ++ [newest]) place := fun w hw =>
    hposted.newest place (hserved ▸ hlt) _ (Runner.postAt?_eq_some hw)
  refine ⟨⟨fun hnone => ?_, fun hnil => ?_⟩, fun w hw => ⟨?_, hforce w hw, (hforce w hw).keys.symm, fun hsame => ?_⟩⟩
  · by_contra hshare
    have hsome := hposted.staffed hgoing place (hserved ▸ hlt) newest List.getLast?_concat hshare
    rw [workerAt?] at hnone
    rw [Runner.postAt?, hnone] at hsome
    cases hsome
  · rw [Option.eq_none_iff_forall_ne_some]
    exact fun w hw => (hforce w hw).share_ne_nil hnil
  · exact hposted.endpoint place _ (Runner.postAt?_eq_some hw)
  · refine (hforce w hw).entities_eq fun poll hpoll e he e' he' => ?_
    exact hsame poll hpoll e ((hposted.fair poll (List.mem_append_left _ hpoll)).mem_entities he) e'
      ((hposted.fair newest (by simp)).mem_entities he')

/-- The contract of the lone pool under a new address. -/
def movedPool : Entity where
  importKey := "pool"
  address := "0x02"
  live := true
  data := .product .investment ⟨"pool", "chain", "0x02", 5, Timestamp.epoch, Coverage.empty Timestamp.epoch⟩

/-- A worker is under way in its pass when the next poll has another address for its entity. -/
def newAddress : List (Move Locks) :=
  let clock : Clock := ⟨Timestamp.epoch, 0⟩
  let later : Clock := ⟨Timestamp.epoch, loneProvider.behaviour.pollEvery⟩
  [.own clock, .answerEntities (.ok [Plan.youngPool]), .own clock, .own clock, .step (.place 0) clock,
    .own later, .answerEntities (.ok [movedPool]), .own later, .own later]

def loneShared : Shared Locks := ((Runner.start loneProvider [] 0).run Feed.youngPoolShared).2

theorem start_loneProvider : (Runner.start loneProvider [] 0).run Feed.youngPoolShared = (.ok loneRunner, loneShared) :=
  Prod.ext rfl rfl

theorem workers_have_newest_keys_newAddress :
    ∃ older newest w, (start loneRunner loneShared).polls newAddress = older ++ [newest] ∧
      ((start loneRunner loneShared).run newAddress).workerAt? (.place 0) = some w ∧
      w.importKeys = newest.keys 0 := by
  have hidle : ((start loneRunner loneShared).run newAddress).runner.isIdle = true := by decide +kernel
  have hpolls : ((start loneRunner loneShared).polls newAddress).getLast?.isSome = true := by decide +kernel
  have hworker : (((start loneRunner loneShared).run newAddress).workerAt? (.place 0)).isSome = true := by
    decide +kernel
  obtain ⟨newest, hnewest⟩ := Option.isSome_iff_exists.1 hpolls
  obtain ⟨older, holder⟩ := List.getLast?_eq_some_iff.1 hnewest
  obtain ⟨w, hw⟩ := Option.isSome_iff_exists.1 hworker
  have h := (workers_have_newest_keys start_loneProvider newAddress).2.2 hidle older newest holder 0 (by decide)
  exact ⟨older, newest, w, holder, hw, (h.2 w hw).2.2.1⟩

/-- The worker goes on with the address of the poll that it was started for. -/
theorem kept_worker_has_old_address :
    ((start loneRunner loneShared).run newAddress).runner.isIdle = true ∧
    (((start loneRunner loneShared).run newAddress).workerAt? (.place 0)).map
        (fun w => (w.result?.isNone, w.assignment.entities)) = some (true, [Plan.youngPool]) ∧
    ((start loneRunner loneShared).polls newAddress).getLast?.map (fun poll => (poll.entities, poll.share 0)) =
      some ([movedPool], [movedPool]) :=
  ⟨by decide +kernel, by decide +kernel, by decide +kernel⟩

/-! ## Keys with two workers -/

theorem place_eq_of_key {sharing : Sharing} {polls : List Poll} (hfair : ∀ poll ∈ polls, poll.Fair sharing setup.endpoints)
    {p q : Nat} {a b : Assignment} (ha : a.InForce polls p) (hb : b.InForce polls q) {key : String}
    (hkey : key ∈ a.entities.map (·.importKey)) (hkey' : key ∈ b.entities.map (·.importKey)) : p = q := by
  rcases List.eq_nil_or_concat' polls with rfl | ⟨older, newest, rfl⟩
  · obtain ⟨before, poll, after, hnil, -⟩ := ha
    simp at hnil
  · rw [← ha.keys] at hkey
    rw [← hb.keys] at hkey'
    exact (hfair newest (by simp)).place_unique hkey hkey'

/-- At any step, with as many as `served` places served of the newest poll, two workers at different places have a
key in common only if one of them is served, and has the key of the newest poll, and the other one is not, and has it
of the polls before. So no key is with two workers between the polls. Workers that are not in the table have ended.
-/
theorem common_key_across_border (hstart : (Runner.start setup costs timer).run s = (.ok r, shared))
    (moves : List (Move σ)) :
    (∀ w ∈ ((start r shared).run moves).adrift, w.result?.isSome = true) ∧
    ∃ served, Runner.Serving setup.endpoints.length ((start r shared).polls moves) served
        ((start r shared).run moves).runner.stage ∧
      ∀ p q w w', p < q → ((start r shared).run moves).workerAt? (.place p) = some w →
        ((start r shared).run moves).workerAt? (.place q) = some w' →
        ∀ key, key ∈ w.importKeys → key ∈ w'.importKeys →
          p < served ∧ served ≤ q ∧ q < setup.endpoints.length ∧
          w.assignment.InForce ((start r shared).polls moves) p ∧
          w'.assignment.InForce ((start r shared).polls moves).dropLast q := by
  obtain ⟨⟨served, hposted⟩, hfair⟩ := posted_of_start hstart moves
  refine ⟨adrift_of_start hstart moves, served, hposted.serving, fun p q w w' hpq hw hw' key hkey hkey' => ?_⟩
  have hpost := Runner.postAt?_eq_some hw
  have hpost' := Runner.postAt?_eq_some hw'
  have hq : q < setup.endpoints.length :=
    (List.getElem?_eq_some_iff.1 (hposted.endpoint q _ hpost')).1
  by_cases hserved : q < served
  · -- both are served
    have hsame := place_eq_of_key hfair (hposted.newest p (by omega) _ hpost) (hposted.newest q hserved _ hpost')
      hkey hkey'
    omega
  · rw [Nat.not_lt] at hserved
    by_cases hleft : served ≤ p
    · -- neither is
      have hsame := place_eq_of_key (fun poll hpoll => hfair poll (List.mem_of_mem_dropLast hpoll))
        (hposted.older p hleft _ hpost) (hposted.older q hserved _ hpost') hkey hkey'
      omega
    · rw [Nat.not_le] at hleft
      exact ⟨hleft, hserved, hq, hposted.newest p hleft _ hpost, hposted.older q hserved _ hpost'⟩

/-- Two providers of one weight, with no worker yet. -/
def pairRunner : Runner where
  setup := ChainRun.twoProviders
  costs := []
  sharing := ⟨⟨[(0, ⟨1, 10000⟩), (1, ⟨10001, 20000⟩)], 20000⟩, some ⟨[(1, ⟨1, 10000⟩)], 10000⟩⟩
  stage := .waiting 0
  workers := [none, none]

def pairShared : Shared Locks := ((Runner.start ChainRun.twoProviders [] 0).run Feed.youngPoolShared).2

theorem start_twoProviders :
    (Runner.start ChainRun.twoProviders [] 0).run Feed.youngPoolShared = (.ok pairRunner, pairShared) :=
  Prod.ext rfl rfl

def keyed (key : String) : Entity := { Plan.youngPool with importKey := key }

/-- With a third entity the first provider takes over what the second one had, and the second one is not served
yet. -/
def thirdEntity : List (Move Locks) :=
  let clock : Clock := ⟨Timestamp.epoch, 0⟩
  let later : Clock := ⟨Timestamp.epoch, ChainRun.twoProviders.behaviour.pollEvery⟩
  [.own clock] ++ .answerEntities (.ok [keyed "a", keyed "b"]) ::
    ([.own clock, .own clock, .own clock, .own later] ++ .answerEntities (.ok [keyed "a", keyed "b", keyed "c"]) ::
      [.own later, .step (.place 0) later, .own later])

/-- Whether the worker at a place is under way, and its keys. -/
def keysAt? (c : Crew Locks) (place : Nat) : Option (Bool × List String) :=
  (c.workerAt? (.place place)).map fun w => (w.result?.isNone, w.importKeys)

theorem exists_of_keysAt? {c : Crew Locks} {place : Nat} {keys : List String} (h : c.keysAt? place = some (true, keys)) :
    ∃ w, c.workerAt? (.place place) = some w ∧ w.result? = none ∧ w.importKeys = keys := by
  obtain ⟨w, hw, hkeys⟩ := Option.map_eq_some_iff.1 h
  rw [Prod.mk.injEq, Option.isNone_iff_eq_none] at hkeys
  exact ⟨w, hw, hkeys⟩

theorem keysAt?_thirdEntity :
    ((start pairRunner pairShared).run thirdEntity).keysAt? 0 = some (true, ["a", "b"]) ∧
    ((start pairRunner pairShared).run thirdEntity).keysAt? 1 = some (true, ["b"]) := by
  have hfirst : Sharing.canonical [keyed "a", keyed "b"] = [keyed "a", keyed "b"] :=
    Sharing.canonical_eq_self (by decide +kernel)
  have hsecond : Sharing.canonical [keyed "a", keyed "b", keyed "c"] = [keyed "a", keyed "b", keyed "c"] :=
    Sharing.canonical_eq_self (by decide +kernel)
  rw [thirdEntity, run_answered ChainRun.twoProviders.behaviour.pollEvery hfirst,
    run_answered (2 * ChainRun.twoProviders.behaviour.pollEvery) hsecond]
  · exact ⟨by decide +kernel, by decide +kernel⟩
  · rfl
  · rfl

theorem common_key_across_border_thirdEntity :
    ∃ served, Runner.Serving 2 ((start pairRunner pairShared).polls thirdEntity) served
      ((start pairRunner pairShared).run thirdEntity).runner.stage ∧ 0 < served ∧ served ≤ 1 := by
  obtain ⟨w, hw, -, hkeys⟩ := exists_of_keysAt? keysAt?_thirdEntity.1
  obtain ⟨w', hw', -, hkeys'⟩ := exists_of_keysAt? keysAt?_thirdEntity.2
  obtain ⟨-, served, hserving, hborder⟩ := common_key_across_border start_twoProviders thirdEntity
  obtain ⟨hp, hq, -⟩ := hborder 0 1 w w' (by decide) hw hw' "b" (by simp [hkeys]) (by simp [hkeys'])
  exact ⟨served, hserving, hp, hq⟩

/-- Two workers can be under way with a key in common. -/
theorem key_with_two_workers :
    ∃ (moves : List (Move Locks)) (w w' : Worker) (key : String),
      ((start pairRunner pairShared).run moves).workerAt? (.place 0) = some w ∧ w.result? = none ∧
      ((start pairRunner pairShared).run moves).workerAt? (.place 1) = some w' ∧ w'.result? = none ∧
      key ∈ w.importKeys ∧ key ∈ w'.importKeys := by
  obtain ⟨w, hw, hlive, hkeys⟩ := exists_of_keysAt? keysAt?_thirdEntity.1
  obtain ⟨w', hw', hlive', hkeys'⟩ := exists_of_keysAt? keysAt?_thirdEntity.2
  exact ⟨thirdEntity, w, w', "b", hw, hlive, hw', hlive', by simp [hkeys], by simp [hkeys']⟩

end Crew

end Backfill
