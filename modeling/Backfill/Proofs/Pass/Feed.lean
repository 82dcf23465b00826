import Backfill.Runner
import Backfill.Proofs.Pass

/-!
# Passes that feed an updater

Any number of passes move in any order; the updater takes what they send, in any order as well, and merges
it. What is covered once everything is merged was covered at the start or was fetched: the answer to some
batch, as long as the batch, says at the place of a query that the query did not fail.
-/

namespace Backfill

/-- An answered batch. -/
abbrev Answered := List (Query Entity UInt64) × BatchAnswer

/-- Passes, the updater, and two records that nothing reads: what was handed in to batches as the fetcher's
answer, and what the passes delivered. -/
structure Feed (σ : Type) where
  shared : Shared σ
  passes : List (Assignment × Pass) := []
  updater : Updater UInt64 := {}
  fetched : List Answered := []
  delivered : List Answered := []

namespace Feed

/-- What may happen next. Passes are known by their places. -/
inductive Move where
  | begin (a : Assignment)
  | step (place : Nat) (clock : Clock) (cancelled : Bool)
  | answerTip (place : Nat) (clock : Clock) (answer : Except RpcError UInt64)
  | answerFetch (place : Nat) (clock : Clock) (batch : Nat) (answer : BatchAnswer)
  /-- The updater takes the outcome at a place of the outbox. -/
  | receive (place : Nat) (clock : Clock)
  | deadline (clock : Clock)

variable {σ : Type}

/-- Nothing has happened yet, and nothing is on its way to the updater. -/
def start (shared : Shared σ) : Feed σ := { shared := { shared with outbox := [] } }

/-- The updater is told something and merges what is complete. -/
def tell (limits : GroupLimits) (clock : Clock) (event : UpdaterEvent UInt64) (s : Feed σ) : Feed σ :=
  { s with
    updater := (s.updater.step limits clock.timer event).1
    shared := ((Runner.mergeGroups clock.date (s.updater.step limits clock.timer event).2).run s.shared).2 }

/-- The step of a pass. -/
def stepPass [LockService σ] (place : Nat) (clock : Clock) (cancelled : Bool) (s : Feed σ) : Feed σ :=
  match s.passes[place]? with
  | none => s
  | some (a, p) =>
    match p.step a clock cancelled with
    | none => s
    | some act =>
      { s with
        shared := (act.run s.shared).2
        passes := s.passes.set place (a, (act.run s.shared).1)
        delivered := s.delivered ++ p.delivery?.toList }

/-- A pass gets the newest block. -/
def answerTip (place : Nat) (clock : Clock) (answer : Except RpcError UInt64) (s : Feed σ) : Feed σ :=
  match s.passes[place]? with
  | none => s
  | some (a, p) =>
    { s with
      shared := ((p.answerTip a clock answer).run s.shared).2
      passes := s.passes.set place (a, ((p.answerTip a clock answer).run s.shared).1) }

/-- A pass gets the answer to a batch under way. -/
def answerFetch (place : Nat) (clock : Clock) (batch : Nat) (answer : BatchAnswer) (s : Feed σ) : Feed σ :=
  match s.passes[place]? with
  | none => s
  | some (a, p) =>
    { s with
      shared := ((p.answerFetch a clock batch answer).run s.shared).2
      passes := s.passes.set place (a, ((p.answerFetch a clock batch answer).run s.shared).1)
      fetched := s.fetched ++ (p.batchAt? batch).toList.map (·, answer) }

/-- The updater takes an outcome. -/
def receive (limits : GroupLimits) (place : Nat) (clock : Clock) (s : Feed σ) : Feed σ :=
  match s.shared.outbox[place]? with
  | none => s
  | some o =>
    tell limits clock (.outcome o) { s with shared := { s.shared with outbox := s.shared.outbox.eraseIdx place } }

def move [LockService σ] (limits : GroupLimits) (s : Feed σ) : Move → Feed σ
  | .begin a => { s with passes := s.passes ++ [(a, .opening)] }
  | .step place clock cancelled => s.stepPass place clock cancelled
  | .answerTip place clock answer => s.answerTip place clock answer
  | .answerFetch place clock batch answer => s.answerFetch place clock batch answer
  | .receive place clock => s.receive limits place clock
  | .deadline clock => s.tell limits clock .deadline

def run [LockService σ] (limits : GroupLimits) (s : Feed σ) (moves : List Move) : Feed σ :=
  moves.foldl (move limits) s

/-- The updater takes what is left in the outbox, the oldest outcome first. -/
def drain [LockService σ] (limits : GroupLimits) (clock : Clock) (s : Feed σ) : Feed σ :=
  s.run limits (List.replicate s.shared.outbox.length (.receive 0 clock))

/-- All senders are gone: what they sent is taken, and then the updater's group ends. -/
def close [LockService σ] (limits : GroupLimits) (clock : Clock) (s : Feed σ) : Feed σ :=
  (s.drain limits clock).tell limits clock .closed

/-! ## The ledger -/

/-- The store and what is on its way to it. With outcomes in the updater's hand, what is covered or will be
was covered at the start or was delivered. -/
structure Kept (first : Store) (hand : List (Outcome UInt64)) (s : Feed σ) : Prop where
  recording : s.shared.store.Recording
  oneKey : OneKey s.updater.group
  known : ∀ o ∈ s.updater.group ++ hand ++ s.shared.outbox, s.shared.store.contains o.importKey = true
  covered : ∀ key, Range.values (s.shared.store.covered key) ∪
      Range.values (Outcome.succeededFor key (s.updater.group ++ hand ++ s.shared.outbox)) =
    Range.values (first.covered key) ∪
      Range.values (Outcome.succeededFor key (s.delivered.flatMap fun r => Delivery.outcomesOf r.1 r.2))

/-- The passes and what they carry: batches of sound queries for entities that have a state, and only results
that were handed in. -/
structure Laden (s : Feed σ) : Prop where
  entities : ∀ ap ∈ s.passes, ∀ e ∈ ap.1.entities, e.OnBlocks
  planned : ∀ ap ∈ s.passes, ∀ batch ∈ ap.2.batches, ∀ q ∈ batch,
    q.Sound ∧ ∀ e ∈ q.entities, s.shared.store.contains e.importKey = true
  got : ∀ ap ∈ s.passes, ∀ batch results, ap.2.Got batch results → (batch, .ok results) ∈ s.fetched
  sound : ∀ r ∈ s.delivered, ∀ q ∈ r.1, q.Sound
  fetched : ∀ batch results, (batch, .ok results) ∈ s.delivered → (batch, .ok results) ∈ s.fetched

theorem kept_start {shared : Shared σ} (h : shared.store.Recording) : Kept shared.store [] (start shared) where
  recording := h
  oneKey := by simp [start, OneKey]
  known := by simp [start]
  covered key := by simp [start, Outcome.succeededFor]

theorem laden_start (shared : Shared σ) : Laden (start shared) := by
  constructor <;> simp [start]

/-! ## The updater -/

theorem Kept.gained_tell {first : Store} {s : Feed σ} {event : UpdaterEvent UInt64} (h : Kept first event.outcomes s)
    (limits : GroupLimits) (clock : Clock) : s.shared.store.Gained (s.updater.step limits clock.timer event).2.flatten
      (s.tell limits clock event).shared.store := by
  have hgroups := (Updater.oneKey_step limits clock.timer h.oneKey event).2
  refine Store.gained_ofGroups h.recording hgroups (fun o ho => ?_) clock.date
  refine h.known o (List.mem_append_left _ ?_)
  rw [← Updater.flatten_step limits clock.timer s.updater event]
  exact List.mem_append_left _ ho

/-- What the updater is told is merged, or stays in its group. -/
theorem Kept.tell {first : Store} {s : Feed σ} {event : UpdaterEvent UInt64} (h : Kept first event.outcomes s)
    (limits : GroupLimits) (clock : Clock) : Kept first [] (s.tell limits clock event) := by
  have hgain := h.gained_tell limits clock
  -- group and hand come apart into what is merged now and the next group
  have hflat := Updater.flatten_step limits clock.timer s.updater event
  refine ⟨hgain.recording, (Updater.oneKey_step limits clock.timer h.oneKey event).1, fun o ho => ?_, fun key => ?_⟩
  · refine (hgain.contains _).trans (h.known o ?_)
    rw [← hflat, List.append_assoc]
    refine List.mem_append_right _ ?_
    rwa [List.append_nil] at ho
  · have hpending := h.covered key
    rw [← hflat, List.append_assoc, Outcome.succeededFor_append, Range.values_append, ← Set.union_assoc,
      ← hgain.covered] at hpending
    rw [List.append_nil]
    exact hpending

theorem Laden.tell {first : Store} {s : Feed σ} {event : UpdaterEvent UInt64} (h : Laden s)
    (hk : Kept first event.outcomes s) (limits : GroupLimits) (clock : Clock) :
    Laden (s.tell limits clock event) where
  entities := h.entities
  planned ap ha batch hb q hq :=
    (h.planned ap ha batch hb q hq).imp_right fun he e hin =>
      ((hk.gained_tell limits clock).contains _).trans (he e hin)
  got := h.got
  sound := h.sound
  fetched := h.fetched

/-! ## Passes -/

/-- Batches come back: their outcomes go to the outbox, and more states may have been created. -/
theorem Kept.send {first : Store} {s s' : Feed σ} (h : Kept first [] s) (sent : List Answered)
    (hstore : s.shared.store.Widened s'.shared.store) (hupdater : s'.updater = s.updater)
    (hdelivered : s'.delivered = s.delivered ++ sent)
    (houtbox : s'.shared.outbox = s.shared.outbox ++ sent.flatMap fun r => Delivery.outcomesOf r.1 r.2)
    (hknown : ∀ r ∈ sent, ∀ o ∈ Delivery.outcomesOf r.1 r.2, s.shared.store.contains o.importKey = true) :
    Kept first [] s' where
  recording := hstore.recording
  oneKey := hupdater ▸ h.oneKey
  known o ho := by
    refine hstore.contains _ ?_
    rw [hupdater, houtbox, ← List.append_assoc] at ho
    rcases List.mem_append.1 ho with ho | ho
    · exact h.known o ho
    · obtain ⟨r, hr, ho⟩ := List.mem_flatMap.1 ho
      exact hknown r hr o ho
  covered key := by
    rw [hstore.covered, hupdater, houtbox, ← List.append_assoc, Outcome.succeededFor_append, Range.values_append,
      ← Set.union_assoc, h.covered, hdelivered, List.flatMap_append, Outcome.succeededFor_append, Range.values_append,
      Set.union_assoc]

theorem Laden.moved {s s' : Feed σ} (h : Laden s) {place : Nat} {a : Assignment} {p p' : Pass} (sent : List Answered)
    (hp : s.passes[place]? = some (a, p)) (hpasses : s'.passes = s.passes.set place (a, p'))
    (hcontains : ∀ key, s.shared.store.contains key = true → s'.shared.store.contains key = true)
    (hplanned : ∀ batch ∈ p'.batches, ∀ q ∈ batch,
      q.Sound ∧ ∀ e ∈ q.entities, s'.shared.store.contains e.importKey = true)
    (hfetched : ∀ r ∈ s.fetched, r ∈ s'.fetched)
    (hgot : ∀ batch results, p'.Got batch results → (batch, .ok results) ∈ s'.fetched)
    (hdelivered : s'.delivered = s.delivered ++ sent)
    (hsent : ∀ r ∈ sent, r.1 ∈ p.batches ∧ ∀ results, r.2 = .ok results → p.Got r.1 results) : Laden s' := by
  have hap : (a, p) ∈ s.passes := List.mem_of_getElem? hp
  refine ⟨fun ap ha => ?_, fun ap ha => ?_, fun ap ha => ?_, fun r hr => ?_, fun batch results hr => ?_⟩
  · rw [hpasses] at ha
    rcases List.mem_or_eq_of_mem_set ha with ha | rfl
    · exact h.entities ap ha
    · exact h.entities (a, p) hap
  · rw [hpasses] at ha
    rcases List.mem_or_eq_of_mem_set ha with ha | rfl
    · exact fun batch hb q hq => (h.planned ap ha batch hb q hq).imp_right fun he e hin => hcontains _ (he e hin)
    · exact hplanned
  · rw [hpasses] at ha
    rcases List.mem_or_eq_of_mem_set ha with ha | rfl
    · exact fun batch results hg => hfetched _ (h.got ap ha batch results hg)
    · exact hgot
  · rw [hdelivered] at hr
    rcases List.mem_append.1 hr with hr | hr
    · exact h.sound r hr
    · exact fun q hq => (h.planned (a, p) hap r.1 (hsent r hr).1 q hq).1
  · rw [hdelivered] at hr
    rcases List.mem_append.1 hr with hr | hr
    · exact hfetched _ (h.fetched batch results hr)
    · exact hfetched _ (h.got (a, p) hap batch results ((hsent _ hr).2 results rfl))

theorem keeps_moved {first : Store} {s s' : Feed σ} (hk : Kept first [] s) (hl : Laden s) {place : Nat}
    {a : Assignment} {p p' : Pass} (sent : List Answered) (hp : s.passes[place]? = some (a, p))
    (hpasses : s'.passes = s.passes.set place (a, p')) (hstore : s'.shared.store = s.shared.store)
    (hupdater : s'.updater = s.updater) (hdelivered : s'.delivered = s.delivered ++ sent)
    (houtbox : s'.shared.outbox = s.shared.outbox ++ sent.flatMap fun r => Delivery.outcomesOf r.1 r.2)
    (hbatches : ∀ batch ∈ p'.batches, batch ∈ p.batches) (hfetched : ∀ r ∈ s.fetched, r ∈ s'.fetched)
    (hgot : ∀ batch results, p'.Got batch results → (batch, .ok results) ∈ s'.fetched)
    (hsent : ∀ r ∈ sent, r.1 ∈ p.batches ∧ ∀ results, r.2 = .ok results → p.Got r.1 results) :
    Kept first [] s' ∧ Laden s' := by
  have hplanned := hl.planned (a, p) (List.mem_of_getElem? hp)
  have hwide : s.shared.store.Widened s'.shared.store := by
    rw [hstore]
    exact .refl hk.recording
  refine ⟨hk.send sent hwide hupdater hdelivered houtbox fun r hr o ho => ?_,
    hl.moved sent hp hpasses hwide.contains (fun batch hb q hq => ?_) hfetched hgot hdelivered hsent⟩
  · obtain ⟨i, q, failure, hq, -, served, hserved, range, -, rfl⟩ := Delivery.mem_outcomesOf.1 ho
    obtain ⟨hsound, hlisted⟩ := hplanned r.1 (hsent r hr).1 q (List.mem_of_getElem? hq)
    exact hlisted served.1 (hsound.listed served hserved)
  · exact (hplanned batch (hbatches batch hb) q hq).imp_right fun he e hin => hwide.contains _ (he e hin)

theorem keeps_stepPass [LockService σ] {first : Store} {s : Feed σ} (hk : Kept first [] s) (hl : Laden s)
    (place : Nat) (clock : Clock) (cancelled : Bool) :
    Kept first [] (s.stepPass place clock cancelled) ∧ Laden (s.stepPass place clock cancelled) := by
  unfold stepPass
  split
  · exact ⟨hk, hl⟩
  · rename_i a p hp
    have hap : (a, p) ∈ s.passes := List.mem_of_getElem? hp
    split
    · exact ⟨hk, hl⟩
    · rename_i act hact
      cases Pass.stepped s.shared hact with
      | quiet hnone hsame hwithin =>
          exact keeps_moved hk hl [] hp rfl hsame.store rfl (by simp [hnone]) (by simp [hsame.outbox])
            hwithin.batches (fun _ hr => hr)
            (fun batch results hg => hl.got _ hap batch results (hwithin.got batch results hg)) (by simp)
      | planned now hnone hstore houtbox hbatches hgot =>
          obtain ⟨hwide, hall⟩ := Assignment.widened_createStates now (hl.entities _ hap) hk.recording
          rw [← hstore] at hwide hall
          refine ⟨hk.send [] hwide rfl (by simp [hnone]) (by simp [houtbox]) (by simp), ?_⟩
          exact hl.moved [] hp rfl hwide.contains
            (fun batch hb q hq => (hbatches batch hb q hq).imp_right fun he e hin => hall e (he e hin))
            (fun _ hr => hr) (fun batch results hg => absurd hg (hgot batch results))
            (by simp [hnone]) (by simp)
      | delivered batch answer hsome hbatch hanswer hstore houtbox hwithin =>
          refine keeps_moved hk hl [(batch, answer)] hp rfl hstore rfl (by simp [hsome]) (by simp [houtbox])
            hwithin.batches (fun _ hr => hr)
            (fun b results hg => hl.got _ hap b results (hwithin.got b results hg)) fun r hr => ?_
          rw [List.mem_singleton.1 hr]
          exact ⟨hbatch, hanswer⟩

theorem keeps_answerTip {first : Store} {s : Feed σ} (hk : Kept first [] s) (hl : Laden s) (place : Nat)
    (clock : Clock) (answer : Except RpcError UInt64) :
    Kept first [] (s.answerTip place clock answer) ∧ Laden (s.answerTip place clock answer) := by
  unfold answerTip
  split
  · exact ⟨hk, hl⟩
  · rename_i a p hp
    obtain ⟨hsame, hwithin⟩ := Pass.answerTip_run a clock answer p s.shared
    exact keeps_moved hk hl [] hp rfl hsame.store rfl (by simp) (by simp [hsame.outbox]) hwithin.batches
      (fun _ hr => hr)
      (fun batch results hg => hl.got _ (List.mem_of_getElem? hp) batch results (hwithin.got batch results hg))
      (by simp)

theorem keeps_answerFetch {first : Store} {s : Feed σ} (hk : Kept first [] s) (hl : Laden s) (place : Nat)
    (clock : Clock) (batch : Nat) (answer : BatchAnswer) :
    Kept first [] (s.answerFetch place clock batch answer) ∧ Laden (s.answerFetch place clock batch answer) := by
  unfold answerFetch
  split
  · exact ⟨hk, hl⟩
  · rename_i a p hp
    obtain ⟨hsame, hbatches, hgot⟩ := Pass.answerFetch_run a clock batch answer p s.shared
    refine keeps_moved hk hl [] hp rfl hsame.store rfl (by simp) (by simp [hsame.outbox]) hbatches
      (fun _ hr => List.mem_append_left _ hr) (fun b results hg => ?_) (by simp)
    rcases hgot b results hg with hg | ⟨hat, rfl⟩
    · exact List.mem_append_left _ (hl.got _ (List.mem_of_getElem? hp) b results hg)
    · refine List.mem_append_right _ ?_
      rw [hat]
      exact List.mem_singleton.2 rfl

/-! ## Runs -/

/-- The updater has an outcome in its hand that was in the outbox. -/
theorem Kept.take {first : Store} {s : Feed σ} (h : Kept first [] s) {o : Outcome UInt64}
    {outbox : List (Outcome UInt64)} (ho : (o :: outbox).Perm s.shared.outbox) :
    Kept first [o] { s with shared := { s.shared with outbox } } := by
  have hperm : (s.updater.group ++ [o] ++ outbox).Perm (s.updater.group ++ [] ++ s.shared.outbox) := by
    rw [List.append_assoc, List.append_nil]
    exact ho.append_left _
  refine ⟨h.recording, h.oneKey, fun a ha => h.known a (hperm.mem_iff.1 ha), fun key => ?_⟩
  rw [← h.covered key, Range.values_perm (Outcome.succeededFor_perm key hperm)]

theorem keeps_receive {first : Store} {s : Feed σ} (hk : Kept first [] s) (hl : Laden s) (limits : GroupLimits)
    (place : Nat) (clock : Clock) :
    Kept first [] (s.receive limits place clock) ∧ Laden (s.receive limits place clock) := by
  unfold receive
  split
  · exact ⟨hk, hl⟩
  · rename_i o ho
    obtain ⟨hplace, rfl⟩ := List.getElem?_eq_some_iff.1 ho
    have htaken := hk.take (List.getElem_cons_eraseIdx_perm hplace)
    have hladen : Laden { s with shared := { s.shared with outbox := s.shared.outbox.eraseIdx place } } :=
      ⟨hl.entities, hl.planned, hl.got, hl.sound, hl.fetched⟩
    exact ⟨htaken.tell limits clock, hladen.tell htaken limits clock⟩

theorem Laden.begin {s : Feed σ} (h : Laden s) {a : Assignment} (ha : ∀ e ∈ a.entities, e.OnBlocks) :
    Laden { s with passes := s.passes ++ [(a, .opening)] } := by
  refine ⟨fun ap hap => ?_, fun ap hap => ?_, fun ap hap => ?_, h.sound, h.fetched⟩
  · rcases List.mem_append.1 hap with hap | hap
    · exact h.entities ap hap
    · rw [List.mem_singleton.1 hap]
      exact ha
  · rcases List.mem_append.1 hap with hap | hap
    · exact h.planned ap hap
    · rw [List.mem_singleton.1 hap]
      intro batch hb
      cases hb
  · rcases List.mem_append.1 hap with hap | hap
    · exact h.got ap hap
    · rw [List.mem_singleton.1 hap]
      rintro batch results ⟨flight, hflight, -⟩
      cases hflight

/-- A pass that a move begins is for entities whose ranges are of blocks. -/
def Move.OnBlocks : Move → Prop
  | .begin a => ∀ e ∈ a.entities, e.OnBlocks
  | _ => True

theorem keeps_move [LockService σ] {first : Store} {s : Feed σ} (hk : Kept first [] s) (hl : Laden s)
    (limits : GroupLimits) {m : Move} (hm : m.OnBlocks) :
    Kept first [] (s.move limits m) ∧ Laden (s.move limits m) := by
  cases m with
  | begin a => exact ⟨⟨hk.recording, hk.oneKey, hk.known, hk.covered⟩, hl.begin hm⟩
  | step place clock cancelled => exact keeps_stepPass hk hl place clock cancelled
  | answerTip place clock answer => exact keeps_answerTip hk hl place clock answer
  | answerFetch place clock batch answer => exact keeps_answerFetch hk hl place clock batch answer
  | receive place clock => exact keeps_receive hk hl limits place clock
  | deadline clock => exact ⟨Kept.tell hk limits clock, hl.tell hk limits clock⟩

theorem keeps_run [LockService σ] {first : Store} {s : Feed σ} (hk : Kept first [] s) (hl : Laden s)
    (limits : GroupLimits) {moves : List Move} (hm : ∀ m ∈ moves, m.OnBlocks) :
    Kept first [] (s.run limits moves) ∧ Laden (s.run limits moves) := by
  induction moves generalizing s with
  | nil => exact ⟨hk, hl⟩
  | cons m moves ih =>
      obtain ⟨hfirst, hrest⟩ := List.forall_mem_cons.1 hm
      obtain ⟨hk', hl'⟩ := keeps_move hk hl limits hfirst
      exact ih hk' hl' hrest

end Feed

end Backfill
