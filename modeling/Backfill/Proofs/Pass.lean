import Backfill.Pass
import Backfill.Proofs.Assignment
import Backfill.Proofs.Delivery
import Backfill.Proofs.PacedCall

/-!
# What the step of a pass does

A step touches the store and the outbox in two ways only: planning creates states and sets out batches, and
the delivery of a batch sends off its outcomes. In between batches and the results that their calls have got
only become fewer, except that a call gets what is handed in to it.
-/

namespace Backfill

/-! ## Shared -/

/-- The store and the outbox are as before. -/
structure Shared.Untouched {σ : Type} (s s' : Shared σ) : Prop where
  store : s'.store = s.store
  outbox : s'.outbox = s.outbox

theorem Shared.Untouched.refl {σ : Type} (s : Shared σ) : s.Untouched s := ⟨rfl, rfl⟩

namespace Pass

/-! ## Batches -/

def flights : Pass → List Flight
  | .fetching f => f.flying
  | _ => []

/-- The batches that are not delivered yet. -/
def batches : Pass → List (List (Query Entity UInt64))
  | .fetching f => f.waiting.map (·.2) ++ f.flying.map (·.batch)
  | _ => []

/-- The call of a batch has got some results. -/
def Got (p : Pass) (batch : List (Query Entity UInt64)) (results : List (Except RpcError Unit)) : Prop :=
  ∃ flight ∈ p.flights, flight.batch = batch ∧ flight.call.Holds results

/-- What the next step delivers. -/
def delivery? : Pass → Option (List (Query Entity UInt64) × BatchAnswer)
  | .fetching f =>
    (pick? (·.call.result?.isSome) f.flying).map fun (_, flight, _) =>
      (flight.batch, flight.call.result?.getD (.ok []))
  | _ => none

/-- Neither batches nor results beyond those of another pass. -/
structure Within (p' p : Pass) : Prop where
  batches : ∀ batch ∈ p'.batches, batch ∈ p.batches
  got : ∀ batch results, p'.Got batch results → p.Got batch results

theorem within_of_nil {p' : Pass} (hb : p'.batches = []) (hf : p'.flights = []) (p : Pass) : p'.Within p where
  batches batch h := by
    rw [hb] at h
    cases h
  got batch results := by
    rintro ⟨flight, h, -⟩
    rw [hf] at h
    cases h

theorem Within.refl (p : Pass) : p.Within p := ⟨fun _ h => h, fun _ _ h => h⟩

theorem eq_of_pick? {β : Type} {p : β → Bool} {xs before after : List β} {x : β}
    (h : pick? p xs = some (before, x, after)) : xs = before ++ x :: after ∧ p x = true := by
  induction xs generalizing before with
  | nil => cases h
  | cons y rest ih =>
      rw [pick?] at h
      split at h
      · rename_i hy
        cases h
        exact ⟨rfl, hy⟩
      · rw [Option.map_eq_some_iff] at h
        obtain ⟨⟨l, z, r⟩, hpick, heq⟩ := h
        cases heq
        obtain ⟨rfl, hz⟩ := ih hpick
        exact ⟨rfl, hz⟩

theorem not_of_pick?_eq_none {β : Type} {p : β → Bool} {xs : List β} (h : pick? p xs = none) :
    ∀ x ∈ xs, p x = false := by
  induction xs with
  | nil => simp
  | cons y rest ih =>
      rw [pick?] at h
      split at h
      · cases h
      · rename_i hy
        rw [Option.map_eq_none_iff] at h
        exact List.forall_mem_cons.2 ⟨Bool.eq_false_of_not_eq_true hy, ih h⟩

/-! ## Steps -/

variable {σ : Type} {a : Assignment} {clock : Clock} {cancelled : Bool}

/-- What a step of a pass may do. -/
inductive Stepped (a : Assignment) (p : Pass) (s : Shared σ) (p' : Pass) (s' : Shared σ) : Prop
  | quiet : p.delivery? = none → s.Untouched s' → p'.Within p → Stepped a p s p' s'
  | planned (now : Timestamp) : p.delivery? = none → s'.store = (Assignment.createStates now a.entities s.store).1 →
    s'.outbox = s.outbox → (∀ batch ∈ p'.batches, ∀ q ∈ batch, q.Sound ∧ ∀ e ∈ q.entities, e ∈ a.entities) →
    (∀ batch results, ¬ p'.Got batch results) → Stepped a p s p' s'
  | delivered (batch : List (Query Entity UInt64)) (answer : BatchAnswer) : p.delivery? = some (batch, answer) →
    batch ∈ p.batches → (∀ results, answer = .ok results → p.Got batch results) → s'.store = s.store →
    s'.outbox = s.outbox ++ Delivery.outcomesOf batch answer → p'.Within p → Stepped a p s p' s'

theorem mem_plan_of_mem_planned {config : Plan.BatchConfig} {latest : UInt64} {s : Shared σ}
    {batch : List (Query Entity UInt64)} (hb : batch ∈ ((planned a config clock latest).run s).1.batches) :
    batch ∈ (a.plan config clock.date latest s.lastImported
      (Assignment.createStates clock.date a.entities s.store).1).1.batches := by
  have hb : batch ∈ List.map (·.2) (List.map (fun p => (p.2, p.1)) (a.plan config clock.date latest s.lastImported
    (Assignment.createStates clock.date a.entities s.store).1).1.batches.zipIdx) ++ [] := hb
  rw [List.append_nil, List.map_map] at hb
  obtain ⟨⟨b, i⟩, hbi, rfl⟩ := List.mem_map.1 hb
  exact List.mem_of_getElem? (List.mk_mem_zipIdx_iff_getElem?.1 hbi)

theorem stepped_planned {p : Pass} (hp : p.delivery? = none) (config : Plan.BatchConfig) (latest : UInt64)
    (s s₀ : Shared σ) (hs : s₀.Untouched s) : Stepped a p s₀ ((planned a config clock latest).run s).1
      ((planned a config clock latest).run s).2 := by
  refine .planned clock.date hp ?_ ?_ (fun batch hb q hq => ?_) ?_
  · rw [← hs.store]
    rfl
  · rw [← hs.outbox]
    rfl
  · exact Assignment.query_of_mem_plan (mem_plan_of_mem_planned hb) hq
  · rintro batch results ⟨flight, hf, -⟩
    cases hf

theorem stepped_opened (s : Shared σ) :
    Stepped a .opening s ((opened (σ := σ) a clock).run s).1 ((opened (σ := σ) a clock).run s).2 := by
  unfold opened
  split
  · exact .quiet rfl (.refl s) (within_of_nil rfl rfl _)
  · split
    · exact .quiet rfl (.refl s) (within_of_nil rfl rfl _)
    · rename_i config hconfig
      simp only [StateT.run_bind, StateT.run_get, pure_bind]
      cases hw : s.cache.word? clock.timer (tipKey a) with
      | none => exact .quiet rfl ⟨rfl, rfl⟩ (within_of_nil rfl rfl _)
      | some latest => exact stepped_planned rfl config latest _ s ⟨rfl, rfl⟩

theorem stepped_tipKnown (config : Plan.BatchConfig) (call : PacedCall UInt64) (r : Except RpcError UInt64)
    (s : Shared σ) : Stepped a (.tip config call) s ((tipKnown (σ := σ) a config clock r).run s).1
      ((tipKnown (σ := σ) a config clock r).run s).2 := by
  cases r with
  | error e => exact .quiet rfl (.refl s) (within_of_nil rfl rfl _)
  | ok latest => exact stepped_planned rfl config latest _ s ⟨rfl, rfl⟩

theorem stepCall_run [LockService σ] {β : Type} (t : CallTerms) (clock : Clock) (c : PacedCall β) (s : Shared σ) :
    s.Untouched ((Shared.stepCall t clock c).run s).2 ∧
      ∀ x, ((Shared.stepCall t clock c).run s).1.Holds x → c.Holds x :=
  ⟨⟨rfl, rfl⟩, fun _ h => PacedCall.holds_of_step h⟩

theorem stepped_tip [LockService σ] (config : Plan.BatchConfig) (call : PacedCall UInt64) (s : Shared σ)
    {act : Act σ Pass} (h : step a clock cancelled (.tip config call) = some act) :
    Stepped a (.tip config call) s (act.run s).1 (act.run s).2 := by
  simp only [step] at h
  split at h
  · cases h
    exact stepped_tipKnown config call _ s
  · split at h
    · cases h
      exact .quiet rfl (stepCall_run (tipTerms a) clock call s).1 (within_of_nil rfl rfl _)
    · cases h

theorem mem_flying {f : Fetching} {before after : List Flight} {flight : Flight}
    (hf : f.flying = before ++ flight :: after) : flight ∈ f.flying := by
  rw [hf]
  exact List.mem_append_right _ List.mem_cons_self

/-- A pass with the same flights but for one that is put in place of another of its batch, or left out. -/
theorem within_of_flights {f : Fetching} {before after flying : List Flight} {flight : Flight}
    (hf : f.flying = before ++ flight :: after) {waiting : List (Nat × List (Query Entity UInt64))}
    (hw : waiting = f.waiting) (outcomes : List (Outcome UInt64))
    (hflying : ∀ g ∈ flying, g ∈ before ∨ g ∈ after ∨ (g.batch = flight.batch ∧
      ∀ results, g.call.Holds results → flight.call.Holds results)) :
    (Pass.fetching { f with waiting, flying, outcomes }).Within (.fetching f) where
  batches batch hb := by
    subst hw
    rcases List.mem_append.1 hb with hb | hb
    · exact List.mem_append_left _ hb
    · obtain ⟨g, hg, rfl⟩ := List.mem_map.1 hb
      refine List.mem_append_right _ ?_
      rw [hf]
      rcases hflying g hg with hg | hg | ⟨hg, -⟩
      · exact List.mem_map_of_mem (List.mem_append_left _ hg)
      · exact List.mem_map_of_mem (List.mem_append_right _ (List.mem_cons_of_mem _ hg))
      · rw [hg]
        exact List.mem_map_of_mem (List.mem_append_right _ List.mem_cons_self)
  got batch results := by
    rintro ⟨g, hg, hbatch, hholds⟩
    rcases hflying g hg with hg | hg | ⟨hg, hsame⟩
    · exact ⟨g, by rw [flights, hf]; exact List.mem_append_left _ hg, hbatch, hholds⟩
    · exact ⟨g, by rw [flights, hf]; exact List.mem_append_right _ (List.mem_cons_of_mem _ hg), hbatch, hholds⟩
    · exact ⟨flight, mem_flying hf, hg.symm.trans hbatch, hsame results hholds⟩

theorem within_of_begun {f : Fetching} {place timer : Nat} {batch : List (Query Entity UInt64)}
    {waiting : List (Nat × List (Query Entity UInt64))} (hf : f.waiting = (place, batch) :: waiting) :
    (Pass.fetching { f with waiting, flying := f.flying ++ [⟨place, batch, { wake := timer }⟩] }).Within
      (.fetching f) where
  batches b hb := by
    rw [batches, hf]
    rcases List.mem_append.1 hb with hb | hb
    · exact List.mem_append_left _ (List.mem_cons_of_mem _ hb)
    · rw [List.map_append] at hb
      rcases List.mem_append.1 hb with hb | hb
      · exact List.mem_append_right _ hb
      · rw [List.mem_singleton.1 hb]
        exact List.mem_append_left _ List.mem_cons_self
  got b results := by
    rintro ⟨g, hg, hbatch, hholds⟩
    rcases List.mem_append.1 hg with hg | hg
    · exact ⟨g, hg, hbatch, hholds⟩
    · rw [List.mem_singleton.1 hg] at hholds
      cases hholds

/-- What a step of the batches is, and when. -/
inductive FetchStep [LockService σ] (a : Assignment) (clock : Clock) (cancelled : Bool) (f : Fetching) :
    Act σ Pass → Prop
  | deliver (before after : List Flight) (flight : Flight) (r : BatchAnswer) :
      f.flying = before ++ flight :: after → flight.call.result? = some r →
      delivery? (.fetching f) = some (flight.batch, r) → FetchStep a clock cancelled f (do
        let outcomes ← deliver a flight.batch r
        return .fetching { f with flying := before ++ after, outcomes := f.outcomes ++ outcomes })
  | begin (place : Nat) (batch : List (Query Entity UInt64)) (waiting : List (Nat × List (Query Entity UInt64))) :
      delivery? (.fetching f) = none → cancelled = false → f.flying.length < f.plan.width →
      f.waiting = (place, batch) :: waiting →
      FetchStep a clock cancelled f (pure (.fetching
        { f with waiting, flying := f.flying ++ [⟨place, batch, { wake := clock.timer }⟩] }))
  | call (before after : List Flight) (flight : Flight) : delivery? (.fetching f) = none →
      f.flying = before ++ flight :: after → flight.isDue clock.timer = true →
      FetchStep a clock cancelled f (do
        let call ← Shared.stepCall (fetchTerms a) clock flight.call
        return .fetching { f with flying := before ++ { flight with call } :: after })
  | close : delivery? (.fetching f) = none → f.flying = [] → FetchStep a clock cancelled f (closed a f)

theorem fetchStep_of_step [LockService σ] {f : Fetching} {act : Act σ Pass}
    (h : stepFetching a clock cancelled f = some act) : FetchStep a clock cancelled f act := by
  rw [stepFetching] at h
  split at h
  · rename_i before flight after hpick
    cases h
    obtain ⟨hf, hsome⟩ := eq_of_pick? hpick
    obtain ⟨r, hr⟩ := Option.isSome_iff_exists.1 hsome
    rw [hr, Option.getD_some]
    exact .deliver before after flight r hf hr (by simp [delivery?, hpick, hr])
  · rename_i hpick
    have hnone : delivery? (.fetching f) = none := by
      rw [delivery?, hpick]
      rfl
    split at h
    · rename_i place batch waiting hwaiting
      cases h
      split at hwaiting
      · rename_i hroom
        rw [Bool.and_eq_true, Bool.not_eq_true', decide_eq_true_eq] at hroom
        exact .begin place batch waiting hnone hroom.1 hroom.2 hwaiting
      · cases hwaiting
    · split at h
      · rename_i before flight after hdue
        cases h
        obtain ⟨hf, hdue⟩ := eq_of_pick? hdue
        exact .call before after flight hnone hf hdue
      · split at h
        · rename_i hempty
          cases h
          exact .close hnone (List.isEmpty_iff.1 hempty)
        · cases h

theorem within_of_fetchStep [LockService σ] {f : Fetching} {act : Act σ Pass} (h : FetchStep a clock cancelled f act)
    (s : Shared σ) : (act.run s).1.Within (.fetching f) := by
  cases h with
  | deliver before after flight r hf hr hdelivery =>
      exact within_of_flights hf rfl _ fun g hg => (List.mem_append.1 hg).imp_right Or.inl
  | begin place batch waiting hnone hgo hroom hwaiting => exact within_of_begun hwaiting
  | call before after flight hnone hf hdue =>
      refine within_of_flights hf rfl f.outcomes fun g hg => ?_
      rcases List.mem_append.1 hg with hg | hg
      · exact Or.inl hg
      · rcases List.mem_cons.1 hg with rfl | hg
        · exact Or.inr (Or.inr ⟨rfl, (stepCall_run (fetchTerms a) clock flight.call s).2⟩)
        · exact Or.inr (Or.inl hg)
  | close hnone hempty => exact within_of_nil rfl rfl _

theorem stepped_fetching [LockService σ] (f : Fetching) (s : Shared σ) {act : Act σ Pass}
    (h : step a clock cancelled (.fetching f) = some act) :
    Stepped a (.fetching f) s (act.run s).1 (act.run s).2 := by
  have hstep := fetchStep_of_step h
  have hwithin := within_of_fetchStep hstep s
  cases hstep with
  | deliver before after flight r hf hr hdelivery =>
      have hflight := mem_flying hf
      refine .delivered flight.batch r hdelivery ?_ ?_ rfl rfl hwithin
      · exact List.mem_append_right _ (List.mem_map_of_mem hflight)
      · rintro results rfl
        exact ⟨flight, hflight, rfl, PacedCall.answer?_of_result? hr⟩
  | begin place batch waiting hnone hgo hroom hwaiting => exact .quiet hnone (.refl s) hwithin
  | call before after flight hnone hf hdue =>
      exact .quiet hnone (stepCall_run (fetchTerms a) clock flight.call s).1 hwithin
  | close hnone hempty => exact .quiet hnone ⟨rfl, rfl⟩ hwithin

theorem stepped [LockService σ] {p : Pass} (s : Shared σ) {act : Act σ Pass} (h : step a clock cancelled p = some act) :
    Stepped a p s (act.run s).1 (act.run s).2 := by
  cases p with
  | opening =>
      cases h
      exact stepped_opened s
  | tip config call => exact stepped_tip config call s h
  | fetching f => exact stepped_fetching f s h
  | finished result => cases h

/-! ## Answers -/

theorem answerTip_run (a : Assignment) (clock : Clock) (answer : Except RpcError UInt64) (p : Pass) (s : Shared σ) :
    s.Untouched ((answerTip (σ := σ) a clock answer p).run s).2 ∧
      ((answerTip (σ := σ) a clock answer p).run s).1.Within p := by
  cases p with
  | tip config call => exact ⟨⟨rfl, rfl⟩, within_of_nil rfl rfl _⟩
  | opening => exact ⟨.refl s, .refl _⟩
  | fetching f => exact ⟨.refl s, .refl _⟩
  | finished result => exact ⟨.refl s, .refl _⟩

/-- The batch at a place. -/
def batchAt? (place : Nat) : Pass → Option (List (Query Entity UInt64))
  | .fetching f => (pick? (·.place == place) f.flying).map fun (_, flight, _) => flight.batch
  | _ => none

theorem mem_batches_of_requeued {f : Fetching} {before after : List Flight} {flight : Flight}
    (hf : f.flying = before ++ flight :: after) {call : PacedCall (List (Except RpcError Unit))}
    {batch : List (Query Entity UInt64)}
    (h : batch ∈ (Pass.fetching { f with flying := before ++ after ++ [{ flight with call }] }).batches) :
    batch ∈ (Pass.fetching f).batches := by
  simp only [batches, hf, List.mem_append, List.map_append, List.map_cons, List.map_nil, List.mem_cons,
    List.not_mem_nil, or_false] at h ⊢
  tauto

theorem got_of_requeued {f : Fetching} {before after : List Flight} {flight : Flight}
    (hf : f.flying = before ++ flight :: after) {call : PacedCall (List (Except RpcError Unit))}
    {batch : List (Query Entity UInt64)} {results : List (Except RpcError Unit)}
    (h : (Pass.fetching { f with flying := before ++ after ++ [{ flight with call }] }).Got batch results) :
    (∃ other ∈ f.flying, other.batch = batch ∧ other.call.Holds results) ∨
      (flight.batch = batch ∧ call.Holds results) := by
  obtain ⟨g, hg, hbatch, hholds⟩ := h
  rcases List.mem_append.1 hg with hg | hg
  · refine Or.inl ⟨g, ?_, hbatch, hholds⟩
    rw [hf]
    exact (List.mem_append.1 hg).elim (List.mem_append_left _)
      fun hg => List.mem_append_right _ (List.mem_cons_of_mem _ hg)
  · rw [List.mem_singleton.1 hg] at hbatch hholds
    exact Or.inr ⟨hbatch, hholds⟩

theorem answerFetch_run (a : Assignment) (clock : Clock) (place : Nat) (answer : BatchAnswer) (p : Pass)
    (s : Shared σ) :
    s.Untouched ((answerFetch (σ := σ) a clock place answer p).run s).2 ∧
      (∀ batch ∈ ((answerFetch (σ := σ) a clock place answer p).run s).1.batches, batch ∈ p.batches) ∧
      ∀ batch results, ((answerFetch (σ := σ) a clock place answer p).run s).1.Got batch results →
        p.Got batch results ∨ (p.batchAt? place = some batch ∧ answer = .ok results) := by
  cases p with
  | fetching f =>
      cases hpick : pick? (·.place == place) f.flying with
      | none =>
          simp only [answerFetch, hpick]
          exact ⟨.refl s, fun _ hb => hb, fun _ _ hg => Or.inl hg⟩
      | some found =>
          obtain ⟨before, flight, after⟩ := found
          obtain ⟨hf, -⟩ := eq_of_pick? hpick
          simp only [answerFetch, hpick]
          refine ⟨⟨rfl, rfl⟩, fun batch hb => mem_batches_of_requeued hf hb, fun batch results hgot => ?_⟩
          rcases got_of_requeued hf hgot with hold | ⟨hbatch, hholds⟩
          · exact Or.inl hold
          · rcases PacedCall.holds_of_answered hholds with heq | hheld
            · refine Or.inr ⟨?_, heq⟩
              rw [batchAt?, hpick, ← hbatch]
              rfl
            · exact Or.inl ⟨flight, mem_flying hf, hbatch, hheld⟩
  | opening => exact ⟨.refl s, fun _ hb => hb, fun _ _ hg => Or.inl hg⟩
  | tip config call => exact ⟨.refl s, fun _ hb => hb, fun _ _ hg => Or.inl hg⟩
  | finished result => exact ⟨.refl s, fun _ hb => hb, fun _ _ hg => Or.inl hg⟩

/-! ## Calls that came back -/

/-- The call of a batch has come back with an answer. -/
def Returned (p : Pass) (batch : List (Query Entity UInt64)) (answer : BatchAnswer) : Prop :=
  ∃ flight ∈ p.flights, flight.batch = batch ∧ flight.call.result? = some answer

variable {batch : List (Query Entity UInt64)} {answer : BatchAnswer}

theorem not_returned_of_delivery? {p : Pass} (h : p.delivery? = none) : ¬ p.Returned batch answer := by
  rintro ⟨flight, hflight, -, hresult⟩
  cases p with
  | fetching f =>
      have hnone := not_of_pick?_eq_none (Option.map_eq_none_iff.1 h) flight hflight
      rw [hresult] at hnone
      cases hnone
  | opening => cases hflight
  | tip config call => cases hflight
  | finished result => cases hflight

theorem returned_of_delivery? {p : Pass} (h : p.delivery? = some (batch, answer)) : p.Returned batch answer := by
  cases p with
  | fetching f =>
      obtain ⟨⟨before, flight, after⟩, hpick, heq⟩ := Option.map_eq_some_iff.1 h
      obtain ⟨hf, hsome⟩ := eq_of_pick? hpick
      obtain ⟨r, hr⟩ := Option.isSome_iff_exists.1 hsome
      obtain ⟨hbatch, hanswer⟩ := Prod.mk.inj heq
      rw [hr, Option.getD_some] at hanswer
      exact ⟨flight, mem_flying hf, hbatch, hanswer ▸ hr⟩
  | opening => cases h
  | tip config call => cases h
  | finished result => cases h

theorem not_returned_of_result? {p : Pass} (h : p.result?.isSome = true) : ¬ p.Returned batch answer := by
  rintro ⟨flight, hflight, -⟩
  cases p with
  | finished result => cases hflight
  | opening => cases h
  | tip config call => cases h
  | fetching f => cases h

/-- A call that came back is delivered before the pass lets go of it. -/
theorem returned_step [LockService σ] {p : Pass} (s : Shared σ) {act : Act σ Pass}
    (h : step a clock cancelled p = some act) (hr : p.Returned batch answer) :
    (act.run s).1.Returned batch answer ∨ p.delivery? = some (batch, answer) := by
  obtain ⟨flight, hflight, hbatch, hresult⟩ := id hr
  cases p with
  | fetching f =>
      cases fetchStep_of_step h with
      | deliver before after found r hf hfound hdelivery =>
          rw [flights, hf] at hflight
          rcases List.mem_append.1 hflight with hold | hold
          · exact Or.inl ⟨flight, List.mem_append_left _ hold, hbatch, hresult⟩
          · rcases List.mem_cons.1 hold with rfl | hold
            · rw [hresult] at hfound
              cases hfound
              exact Or.inr (hbatch ▸ hdelivery)
            · exact Or.inl ⟨flight, List.mem_append_right _ hold, hbatch, hresult⟩
      | begin place other waiting hnone => exact absurd hr (not_returned_of_delivery? hnone)
      | call before after found hnone => exact absurd hr (not_returned_of_delivery? hnone)
      | close hnone => exact absurd hr (not_returned_of_delivery? hnone)
  | opening => cases hflight
  | tip config call => cases hflight
  | finished result => cases hflight

/-- An answer to a batch takes back no other one. -/
theorem returned_answerFetch {place : Nat} {other : BatchAnswer} {p : Pass} (s : Shared σ)
    (hr : p.Returned batch answer) : ((answerFetch (σ := σ) a clock place other p).run s).1.Returned batch answer := by
  obtain ⟨flight, hflight, hbatch, hresult⟩ := hr
  cases p with
  | fetching f =>
      cases hpick : pick? (·.place == place) f.flying with
      | none =>
          simp only [answerFetch, hpick]
          exact ⟨flight, hflight, hbatch, hresult⟩
      | some found =>
          obtain ⟨before, next, after⟩ := found
          obtain ⟨hf, -⟩ := eq_of_pick? hpick
          rw [flights, hf] at hflight
          simp only [answerFetch, hpick]
          rcases List.mem_append.1 hflight with hold | hold
          · exact ⟨flight, List.mem_append_left _ (List.mem_append_left _ hold), hbatch, hresult⟩
          · rcases List.mem_cons.1 hold with rfl | hold
            · refine ⟨_, List.mem_append_right _ (List.mem_singleton.2 rfl), hbatch, ?_⟩
              exact (congrArg PacedCall.result? (PacedCall.answered_of_result? hresult)).trans hresult
            · exact ⟨flight, List.mem_append_left _ (List.mem_append_right _ hold), hbatch, hresult⟩
  | opening => cases hflight
  | tip config call => cases hflight
  | finished result => cases hflight

theorem returned_answerTip {other : Except RpcError UInt64} {p : Pass} (s : Shared σ) (hr : p.Returned batch answer) :
    ((answerTip (σ := σ) a clock other p).run s).1.Returned batch answer := by
  cases p with
  | fetching f => exact hr
  | tip config call =>
      obtain ⟨flight, hflight, -⟩ := hr
      cases hflight
  | opening => exact hr
  | finished result => exact hr

end Pass

end Backfill
