import Backfill.Rehearsal.Locks
import Backfill.Rehearsal.Fetcher
import Backfill.Runner

/-!
# Rehearsals

Workers and runners at work against scripted locks and a scripted fetcher. Nothing takes time but
waiting, and the timer jumps to the next reading for which somebody waits. The date stands still.
-/

namespace Backfill.Rehearsal

/-- Everything around the work. -/
structure Scene where
  clock : Clock
  shared : Shared ScriptedLocks
  fetcher : Fetcher := {}

namespace Scene

/-- Runs a step on what is shared. -/
def act {β : Type} (s : Scene) (f : Act ScriptedLocks β) : β × Scene :=
  let (x, shared) := f s.shared
  (x, { s with shared })

def sleepUntil (s : Scene) (timer : Nat) : Scene := { s with clock := s.clock.untilTimer timer }

/-! ## Single calls -/

/-- Makes a call whose attempts are answered by a list; the last answer is repeated. The result and the
number of physical calls. -/
def call {β : Type} (t : CallTerms) (answers : List (Except RpcError β)) (s : Scene) :
    Option (Except RpcError β × Nat) × Scene :=
  go 100000 { wake := s.clock.timer } 0 s
where
  go : Nat → PacedCall β → Nat → Scene → Option (Except RpcError β × Nat) × Scene
    | 0, _, _, s => (none, s)
    | fuel + 1, c, made, s =>
      match c.result? with
      | some r => (some (r, made), s)
      | none =>
        if c.isCalling then
          match (answers[made]?).or answers.getLast? with
          | none => (none, s)
          | some answer =>
            let (c, s) := s.act (Shared.answerCall t s.clock answer c)
            go fuel c (made + 1) s
        else
          let s := s.sleepUntil c.wake
          let (c, s) := s.act (Shared.stepCall t s.clock c)
          go fuel c made s

/-! ## Passes and workers -/

/-- Answers a request of the worker at a place: what the worker is told, and whether the work is cancelled
meanwhile. -/
def answer (place : Nat) (archive : Bool) (r : Request) (s : Scene) :
    ((Worker → Act ScriptedLocks Worker) × Bool) × Scene :=
  match r with
  | .tip =>
    let (tip, fetcher) := s.fetcher.tip
    ((Worker.answerTip s.clock tip, false), { s with fetcher })
  | .fetch batchPlace batch =>
    let (results, fetcher) := s.fetcher.fetch place archive batch
    ((Worker.answerFetch s.clock batchPlace results, fetcher.cancels), { s with fetcher })

/-- Runs a worker until it has ended or the timer reaches the limit. -/
def work (limit : Nat) : Nat → Worker → Scene → Option (Except IndexerError Unit) × Scene
  | 0, _, s => (none, s)
  | fuel + 1, w, s =>
    match w.result? with
    | some r => (some r, s)
    | none =>
      match w.step s.clock with
      | some step =>
        let (w, s) := s.act step
        work limit fuel w s
      | none =>
        match w.requests, w.wake? with
        | request :: _, _ =>
          let ((told, cancelled), s) := s.answer 0 w.assignment.endpoint.limitations.archive request
          let (w, s) := s.act (told (if cancelled then w.stop else w))
          work limit fuel w s
        | [], some wake => if limit < wake then (none, s) else work limit fuel w (s.sleepUntil wake)
        | [], none => (none, s)

/-- Runs one pass to its end. -/
def pass (a : Assignment) : Nat → Bool → Pass → Scene → Option (Except IndexerError Summary) × Scene
  | 0, _, _, s => (none, s)
  | fuel + 1, cancelled, p, s =>
    match p.result? with
    | some r => (some r, s)
    | none =>
      match p.step a s.clock cancelled with
      | some step =>
        let (p, s) := s.act step
        pass a fuel cancelled p s
      | none =>
        match p.requests, p.wake? with
        | .tip :: _, _ =>
          let (tip, fetcher) := s.fetcher.tip
          let (p, s) := { s with fetcher }.act (p.answerTip a s.clock tip)
          pass a fuel cancelled p s
        | .fetch place batch :: _, _ =>
          let (results, fetcher) := s.fetcher.fetch 0 a.endpoint.limitations.archive batch
          let (p, s') := { s with fetcher }.act (p.answerFetch a s.clock place results)
          pass a fuel (cancelled || fetcher.cancels) p s'
        | [], some wake => pass a fuel cancelled p (s.sleepUntil wake)
        | [], none => (none, s)

/-- Hands everything that was sent to an updater of its own, which then stops. -/
def merge (limits : GroupLimits) (s : Scene) : Scene :=
  let (u, groups) := s.shared.outbox.foldl (fun (u, groups) o =>
    let (u, more) := Updater.step limits s.clock.timer u (.outcome o)
    (u, groups ++ more)) (({} : Updater UInt64), [])
  let (_, last) := u.step limits s.clock.timer .closed
  (s.act do
    Runner.mergeGroups s.clock.date (groups ++ last)
    modify fun shared => { shared with outbox := [] }
    Shared.say [Merge.stoppedEntry]).2

end Scene

/-! ## Runners -/

/-- What the source of entities yields at a poll, and the fetcher's script from then on. -/
structure Poll where
  entities : Except String (List Entity)
  script : FetchScript

/-- The polls of a runner: those to come, and what was tried after each one before the present. -/
structure Season where
  scene : Scene
  coming : List Poll
  past : List (List Tried) := []
  /-- Polls that were served. -/
  served : Nat := 0

namespace Season

/-- What was tried after each poll that was served. -/
def tried (s : Season) : List (List Tried) := if s.served = 0 then [] else s.past ++ [s.scene.fetcher.tried]

/-- Serves a poll. After the last one a shutdown is requested and there are no entities. -/
def serve (s : Season) (r : Runner) : Runner × Season :=
  match s.coming with
  | [] =>
    let (r, scene) := s.scene.act (r.requestShutdown.answerEntities (.ok []))
    (r, { s with scene })
  | p :: coming =>
    let scene := { s.scene with fetcher := Fetcher.load p.script }
    let (r, scene) := scene.act (r.answerEntities p.entities)
    (r, { scene, coming, past := s.tried, served := s.served + 1 })

/-- Runs a runner to its end. -/
def run : Nat → Runner → Season → Option (Except IndexerError Unit) × Season
  | 0, _, s => (none, s)
  | fuel + 1, r, s =>
    match r.result? with
    | some result => (some result, s)
    | none =>
      match r.step s.scene.clock with
      | some step =>
        let (r, scene) := s.scene.act step
        run fuel r { s with scene }
      | none =>
        if r.asksEntities then
          let (r, s) := s.serve r
          run fuel r s
        else
          match r.requests, r.wake? with
          | (place, w, request) :: _, _ =>
            let ((told, _), scene) := s.scene.answer place w.assignment.endpoint.limitations.archive request
            let (r, scene) := scene.act (r.answer scene.clock place told)
            run fuel r { s with scene }
          | [], some wake => run fuel r { s with scene := s.scene.sleepUntil wake }
          | [], none => (none, s)

end Season

end Backfill.Rehearsal
