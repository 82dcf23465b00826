import Backfill.Proofs.Runner.Polls

/-!
# Posts while shares are handed out

The places are served one after another. Those that are served hold what the newest poll gave them, those that are
left still hold what the polls before it gave them. Each step of the runner's own keeps that border or moves it by
one place.
-/

namespace Backfill

/-! ## Posts -/

namespace Runner

def postAt? (r : Runner) (place : Nat) : Option Assignment := (r.workerAt? place).map (·.assignment)

variable {r : Runner} {place : Nat}

theorem postAt?_eq_some {w : Worker} (hw : r.workerAt? place = some w) : r.postAt? place = some w.assignment := by
  rw [postAt?, hw, Option.map_some]

theorem postAt?_setWorker_ne {other : Nat} (w : Option Worker) (h : other ≠ place) :
    (r.setWorker place w).postAt? other = r.postAt? other := by
  rw [postAt?, postAt?, workerAt?_setWorker, if_neg fun hother => h hother.1.symm]

theorem postAt?_setWorker_self (w : Option Worker) (h : place < r.workers.length) :
    (r.setWorker place w).postAt? place = w.map (·.assignment) := by
  rw [postAt?, workerAt?_setWorker, if_pos ⟨rfl, h⟩]

theorem postAt?_of_emptied {other : Nat} {a : Assignment} (h : (r.setWorker place none).postAt? other = some a) :
    r.postAt? other = some a := by
  rw [postAt?, workerAt?_setWorker] at h
  split at h
  · cases h
  · exact h

theorem length_setWorker (w : Option Worker) : (r.setWorker place w).workers.length = r.workers.length :=
  List.length_set

/-- The runner does the same thing, and the places have the same assignments. -/
structure Alike (r r' : Runner) : Prop where
  setup : r'.setup = r.setup
  sharing : r'.sharing = r.sharing
  stage : r'.stage = r.stage
  length : r'.workers.length = r.workers.length
  posts : ∀ place, r'.postAt? place = r.postAt? place

theorem Alike.refl (r : Runner) : Alike r r := ⟨rfl, rfl, rfl, rfl, fun _ => rfl⟩

/-- A worker may be replaced by what becomes of it. -/
theorem alike_setWorker {w next : Worker} (hw : r.workerAt? place = some w)
    (hnext : next.assignment = w.assignment) : Alike r (r.setWorker place (some next)) := by
  refine ⟨rfl, rfl, rfl, length_setWorker _, fun other => ?_⟩
  by_cases hother : other = place
  · have hlt := (List.getElem?_eq_some_iff.1 (workerAt?_eq_some.1 hw)).1
    rw [hother, postAt?_setWorker_self _ hlt, postAt?_eq_some hw, Option.map_some, hnext]
  · exact postAt?_setWorker_ne _ hother

theorem alike_requestShutdown (r : Runner) : Alike r r.requestShutdown := by
  refine ⟨rfl, rfl, rfl, List.length_map _, fun place => ?_⟩
  rw [postAt?, postAt?, workerAt?_requestShutdown, Option.map_map]
  rfl

/-- How many places have got their shares of the newest poll, by what the runner is doing. -/
def Serving (places : Nat) (polls : List Poll) (served : Nat) : RunnerStage → Prop
  | .handing _ rest =>
    served ≤ places ∧ ∃ older newest, polls = older ++ [newest] ∧ newest.shares.drop served = rest
  | .stopping (.error _) | .ended _ => served ≤ places
  | .waiting _ | .polling _ | .stopping (.ok ()) => served = places

theorem Serving.le {places served : Nat} {polls : List Poll} {stage : RunnerStage}
    (h : Serving places polls served stage) : served ≤ places := by
  cases stage with
  | handing poll rest => exact h.1
  | stopping result =>
      cases result with
      | ok _ => exact Nat.le_of_eq h
      | error e => exact h
  | ended result => exact h
  | _ => exact Nat.le_of_eq h

/-- The runner hands no shares out and goes on to its next poll. -/
def isIdle (r : Runner) : Bool :=
  match r.stage with
  | .waiting _ | .polling _ => true
  | _ => false

def Going (r : Runner) : Prop := ∀ result, r.stage ≠ .stopping result ∧ r.stage ≠ .ended result

/-- What the places have, after as many as `served` have got their shares of the newest poll. -/
structure Posted (setup : Setup) (polls : List Poll) (served : Nat) (r : Runner) : Prop where
  configured : r.setup = setup
  sharing : Sharing.ofEndpoints setup.endpoints = .ok r.sharing
  length : r.workers.length = setup.endpoints.length
  fair : ∀ poll ∈ polls, poll.Fair r.sharing setup.endpoints
  serving : Serving setup.endpoints.length polls served r.stage
  endpoint : ∀ place a, r.postAt? place = some a → setup.endpoints[place]? = some a.endpoint
  newest : ∀ place < served, ∀ a, r.postAt? place = some a → a.InForce polls place
  older : ∀ place, served ≤ place → ∀ a, r.postAt? place = some a → a.InForce polls.dropLast place
  staffed : r.Going → ∀ place < served, ∀ poll ∈ polls.getLast?, poll.share place ≠ [] →
    (r.postAt? place).isSome = true

variable {setup : Setup} {polls : List Poll} {served : Nat} {r' : Runner}

theorem Posted.of_alike (h : Posted setup polls served r) (halike : Alike r r') : Posted setup polls served r' := by
  obtain ⟨hsetup, hsharing, hstage, hlength, hposts⟩ := halike
  refine ⟨hsetup.trans h.configured, hsharing ▸ h.sharing, hlength.trans h.length, hsharing ▸ h.fair, hstage ▸ h.serving,
    ?_, ?_, ?_, ?_⟩
  · simpa only [hposts] using h.endpoint
  · simpa only [hposts] using h.newest
  · simpa only [hposts] using h.older
  · simpa only [hposts, Going, hstage] using h.staffed

/-- The runner may turn to something else that the same places are served for. -/
theorem Posted.turn (h : Posted setup polls served r) (hgoing : r.Going) {stage : RunnerStage}
    (hserving : Serving setup.endpoints.length polls served stage) : Posted setup polls served { r with stage } :=
  ⟨h.configured, h.sharing, h.length, h.fair, hserving, h.endpoint, h.newest, h.older, fun _ => h.staffed hgoing⟩

/-- On its way out the runner may empty places. -/
theorem Posted.clear (h : Posted setup polls served r) (hsetup : r'.setup = r.setup) (hsharing : r'.sharing = r.sharing)
    (hlength : r'.workers.length = r.workers.length)
    (hposts : ∀ place a, r'.postAt? place = some a → r.postAt? place = some a)
    (hserving : Serving setup.endpoints.length polls served r'.stage) (hgone : ¬ r'.Going) :
    Posted setup polls served r' :=
  ⟨hsetup.trans h.configured, hsharing ▸ h.sharing, hlength.trans h.length, hsharing ▸ h.fair, hserving,
    fun place a ha => h.endpoint place a (hposts place a ha),
    fun place hlt a ha => h.newest place hlt a (hposts place a ha),
    fun place hle a ha => h.older place hle a (hposts place a ha), fun hgoing => absurd hgoing hgone⟩

/-- The next place is served, and the others keep what they have. -/
theorem Posted.serve (h : Posted setup polls served r) (hgoing : r.Going) (hsetup : r'.setup = r.setup)
    (hsharing : r'.sharing = r.sharing) (hlength : r'.workers.length = r.workers.length)
    (hserving : Serving setup.endpoints.length polls (served + 1) r'.stage)
    (hothers : ∀ place, place ≠ served → r'.postAt? place = r.postAt? place)
    (hendpoint : ∀ a, r'.postAt? served = some a → setup.endpoints[served]? = some a.endpoint)
    (hforce : ∀ a, r'.postAt? served = some a → a.InForce polls served)
    (hstaffed : ∀ poll ∈ polls.getLast?, poll.share served ≠ [] → (r'.postAt? served).isSome = true) :
    Posted setup polls (served + 1) r' where
  configured := hsetup.trans h.configured
  sharing := hsharing ▸ h.sharing
  length := hlength.trans h.length
  fair := hsharing ▸ h.fair
  serving := hserving
  endpoint place a ha := by
    by_cases hplace : place = served
    · subst hplace
      exact hendpoint a ha
    · exact h.endpoint place a (hothers place hplace ▸ ha)
  newest place hlt a ha := by
    by_cases hplace : place = served
    · subst hplace
      exact hforce a ha
    · exact h.newest place (by omega) a (hothers place hplace ▸ ha)
  older place hle a ha := h.older place (by omega) a (hothers place (by omega) ▸ ha)
  staffed _ place hlt poll hpoll hshare := by
    by_cases hplace : place = served
    · subst hplace
      exact hstaffed poll hpoll hshare
    · rw [hothers place hplace]
      exact h.staffed hgoing place (by omega) poll hpoll hshare

theorem Posted.of_isIdle (h : Posted setup polls served r) (hidle : r.isIdle = true) :
    served = setup.endpoints.length ∧ r.Going := by
  have hserving := h.serving
  cases hstage : r.stage with
  | waiting poll | polling poll =>
      rw [hstage] at hserving
      exact ⟨hserving, by simp [Going, hstage]⟩
  | _ => simp [isIdle, hstage] at hidle

/-! ## Steps of the runner's own -/

theorem going_of_handing {poll : Nat} {shares : List (Nat × List Entity)} (h : r.stage = .handing poll shares) :
    r.Going := by simp [Going, h]

theorem Posted.handed (h : Posted setup polls served r) {poll : Nat} {share : List Entity}
    {rest : List (Nat × List Entity)} (hstage : r.stage = .handing poll ((place, share) :: rest))
    (hhanded : Handed r poll place share rest r') : ∃ served, Posted setup polls served r' := by
  have hgoing := going_of_handing hstage
  have hserving := h.serving
  rw [hstage] at hserving
  obtain ⟨hle, older, newest, rfl, hdrop⟩ := hserving
  have hlast : (older ++ [newest]).getLast? = some newest := List.getLast?_concat
  have hbefore : (older ++ [newest]).dropLast = older := List.dropLast_concat
  obtain ⟨rfl, hlt, hshare, hrest⟩ := (h.fair newest (by simp)).next hdrop
  have hseat : ∀ w, ({ r with stage := .handing poll rest }.setWorker place w).postAt? place =
      w.map (·.assignment) := fun w => postAt?_setWorker_self w (h.length ▸ hlt)
  have hnext : Serving setup.endpoints.length (older ++ [newest]) (place + 1) (.handing poll rest) :=
    ⟨hlt, older, newest, rfl, hrest⟩
  cases hhanded with
  | asked hvacates hw => exact ⟨place, h.of_alike (alike_setWorker hw rfl)⟩
  | @kept w hvacates hw hkeeps =>
      have hpost : r.postAt? place = some w.assignment := postAt?_eq_some hw
      -- only the keys are compared, so the assignment stays in force and need not be the new share
      rw [keeps, Bool.and_eq_true, beq_iff_eq, ← hshare] at hkeeps
      refine ⟨place + 1, h.serve hgoing rfl rfl rfl hnext (fun _ _ => rfl) (h.endpoint place) (fun a ha => ?_)
        fun _ _ _ => Option.isSome_of_eq_some hpost⟩
      cases hpost.symm.trans ha
      exact (hbefore ▸ h.older place le_rfl _ hpost).kept hkeeps.2.symm
  | @hired endpoint next hvacates hplace hne hassigned =>
      have hpost : ({ r with stage := .handing poll rest }.setWorker place (some next)).postAt? place =
          some ⟨r.setup, endpoint, r.costs, share⟩ := by
        rw [hseat, Option.map_some, hassigned]
      refine ⟨place + 1, h.serve hgoing rfl rfl (length_setWorker _) hnext
        (fun other hother => postAt?_setWorker_ne _ hother) (fun a ha => ?_) (fun a ha => ?_)
        fun _ _ _ => Option.isSome_of_eq_some hpost⟩
      · cases hpost.symm.trans ha
        rw [← h.configured]
        exact hplace
      · cases hpost.symm.trans ha
        exact Assignment.inForce_given hshare.symm hne
  | emptied hvacates hempty =>
      refine ⟨place + 1, h.serve hgoing rfl rfl (length_setWorker _) hnext
        (fun other hother => postAt?_setWorker_ne _ hother) (by simp [hseat]) (by simp [hseat]) fun p hp hne => ?_⟩
      cases hlast.symm.trans hp
      rcases hempty with hnone | hempty
      · rw [h.configured, List.getElem?_eq_none_iff] at hnone
        omega
      · exact absurd (hshare.trans hempty) hne
  | broken hvacates e =>
      exact ⟨place, h.clear rfl rfl (length_setWorker _) (fun other a => postAt?_of_emptied (r := r)) hle
        fun hgoing => (hgoing _).1 rfl⟩

theorem Posted.stepped (h : Posted setup polls served r) (hstepped : Stepped r r') :
    ∃ served, Posted setup polls served r' := by
  have hserving := h.serving
  cases hstepped with
  | stop hstage hshutdown | poll hstage =>
      rw [hstage] at hserving
      exact ⟨served, h.turn (by simp [Going, hstage]) hserving⟩
  | handed hstage hhanded => exact h.handed hstage hhanded
  | rest hstage =>
      rw [hstage] at hserving
      obtain ⟨hle, older, newest, rfl, hdrop⟩ := hserving
      refine ⟨served, h.turn (by simp [Going, hstage]) (Nat.le_antisymm hle ?_)⟩
      rw [← (h.fair newest (by simp)).length]
      exact List.drop_eq_nil_iff.1 hdrop
  | ask hstage hvacates hw => exact ⟨served, h.of_alike (alike_setWorker hw rfl)⟩
  | @drop result place hstage hvacates =>
      exact ⟨served, h.clear rfl rfl (length_setWorker _) (fun other a => postAt?_of_emptied) hserving
        fun hgoing => (hgoing result).1 hstage⟩

/-! ## New shares -/

theorem postAt?_of_length_le (h : r.workers.length ≤ place) : r.postAt? place = none := by
  rw [postAt?, workerAt?, List.getElem?_eq_none h]
  rfl

/-- A new poll finds every place with what the polls before it gave. -/
theorem Posted.hear (h : Posted setup polls served r) {poll : Nat} (hstage : r.stage = .polling poll)
    (needed : List String) (entities : List Entity) :
    Posted setup (polls ++ [⟨needed, entities, r.sharing.shares needed (Sharing.canonical entities)⟩]) 0
      { r with stage := .handing poll (r.sharing.shares needed (Sharing.canonical entities)) } where
  configured := h.configured
  sharing := h.sharing
  length := h.length
  fair p hp := by
    rcases List.mem_append.1 hp with hp | hp
    · exact h.fair p hp
    · rw [List.mem_singleton.1 hp]
      exact (Sharing.fits_of_ofEndpoints h.sharing).sharesOut needed entities
  serving := ⟨Nat.zero_le _, polls, _, rfl, List.drop_zero⟩
  endpoint := h.endpoint
  newest place hlt := absurd hlt (Nat.not_lt_zero place)
  older place _ a ha := by
    -- all places are served when the next poll begins, so what was newest is older now
    have hserving := h.serving
    rw [hstage] at hserving
    rw [List.dropLast_concat]
    refine h.newest place ?_ a ha
    by_contra hle
    rw [Nat.not_lt, hserving, ← h.length] at hle
    cases (postAt?_of_length_le hle).symm.trans ha
  staffed _ place hlt := absurd hlt (Nat.not_lt_zero place)

theorem posted_start (hsetup : r.setup = setup) {timer : Nat} (hstage : r.stage = .waiting timer)
    (hsharing : Sharing.ofEndpoints setup.endpoints = .ok r.sharing)
    (hworkers : r.workers = setup.endpoints.map fun _ => none) : Posted setup [] setup.endpoints.length r := by
  have hnone : ∀ place, r.postAt? place = none := by
    intro place
    rw [postAt?, workerAt?, hworkers, List.getElem?_map]
    cases setup.endpoints[place]? <;> rfl
  refine ⟨hsetup, hsharing, ?_, fun poll hpoll => absurd hpoll List.not_mem_nil, by rw [hstage]; rfl, ?_, ?_, ?_, ?_⟩
  · rw [hworkers, List.length_map]
  · simp [hnone]
  · simp [hnone]
  · simp [hnone]
  · simp

end Runner

end Backfill
