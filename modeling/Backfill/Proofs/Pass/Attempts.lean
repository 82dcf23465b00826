import Backfill.Process
import Backfill.Proofs.PacedCall.Attempts
import Backfill.Proofs.Pass
import Backfill.Proofs.Remote

/-!
# When a failed batch has spent its attempts

The flights of a pass are calls for raw logs. One that gives up fails all its queries after the last attempt, and so
does a query that travels alone. A batch that shares a message ends with the first reply that can be read: an error
at the place of one query is that query's result, and nothing is attempted again for it.
-/

namespace Backfill

/-- What a reply to the message of a flight may amount to. -/
def Flight.MayHear (f : Flight) (answer : BatchAnswer) : Prop :=
  ∃ first reply, answer = (Remote.readLogs first (Process.calls (.fetch f.place f.batch)) reply).1

/-- A flight on its way under some terms: how many attempts have begun, and the answers so far, the newest first. -/
abbrev Flight.Tried (σ : Type) [LockService σ] (t : CallTerms) (f : Flight) (begun : Nat)
    (heard : List BatchAnswer) : Prop := PacedCall.Tried σ t f.MayHear f.call begun heard

namespace Flight

variable {σ : Type} [LockService σ] {t : CallTerms} {f : Flight} {begun : Nat} {heard : List BatchAnswer}
  {answer : BatchAnswer} {e : RpcError}

theorem MayHear.givesUp (h : f.MayHear (.error e)) : e.givesUp = false := by
  obtain ⟨first, reply, hanswer⟩ := h
  exact Remote.givesUp_of_readLogs hanswer.symm

theorem MayHear.results {results : List (Except RpcError Unit)} (h : f.MayHear (.ok results)) :
    results.length = f.batch.length ∧ ∀ e, .error e ∈ results → 2 ≤ f.batch.length ∧ e.givesUp = false := by
  obtain ⟨first, reply, hanswer⟩ := h
  have hread := Remote.readLogs_eq_ok hanswer.symm
  rwa [Process.calls, List.length_map] at hread

theorem Tried.length_eq (h : f.Tried σ t begun heard) {results : List (Except RpcError Unit)}
    (hresult : f.call.result? = some (.ok results)) : results.length = f.batch.length := by
  cases (h.ended hresult).2 with
  | heard hlast hfinal => exact (h.allowed_of_mem (List.mem_of_mem_head? hlast)).results.1

/-- A flight has ended and one of its queries failed with an error that another attempt might have mended, or
because the call gave up. All attempts have begun then, unless the query travelled with others: its own error in the
last reply, which can be read, has ended the call after as many attempts as it took to get such a reply. -/
theorem Tried.retryable_failure (h : f.Tried σ t begun heard) (hresult : f.call.result? = some answer) {i : Nat}
    (hfailed : (answer.failures f.batch.length)[i]? = some (some e)) (he : e.retryable = true ∨ e.givesUp = true) :
    begun ≤ t.retry.maxAttempts ∧ (f.batch.length ≤ 1 → begun = t.retry.maxAttempts) ∧
    (e.givesUp = true → begun = t.retry.maxAttempts) ∧
    (e.retryable = true → 2 ≤ f.batch.length ∧ heard.head? = some answer ∧
      ∃ results, answer = .ok results ∧ results[i]? = some (.error e)) := by
  obtain ⟨hle, hended⟩ := h.ended hresult
  have hlen : ∀ results, answer = .ok results → results.length = f.batch.length := by
    rintro results rfl
    exact h.length_eq hresult
  have hcause := BatchAnswer.getElem?_failures_eq_some hfailed hlen
  cases hended with
  | gaveUp hbegun hretryable =>
      refine ⟨hle, fun _ => hbegun, fun _ => hbegun, fun hagain => ?_⟩
      rcases hcause with herror | ⟨results, hok, -⟩
      · cases herror
        cases hagain
      · cases hok
  | heard hlast hfinal =>
      have hheard := h.allowed_of_mem (List.mem_of_mem_head? hlast)
      rcases hcause with rfl | ⟨results, rfl, hi⟩
      · -- no reply is an error that says the call gave up
        have hgives := hheard.givesUp
        have hagain := hfinal e rfl
        rcases he with he | he
        · rw [hagain] at he
          cases he
        · rw [hgives] at he
          cases he
      · obtain ⟨hshared, hgives⟩ := hheard.results.2 e (List.mem_of_getElem? hi)
        refine ⟨hle, fun halone => by omega, fun hgave => ?_, fun _ => ⟨hshared, hlast, results, rfl, hi⟩⟩
        rw [hgives] at hgave
        cases hgave

/-- Two attempts, with no delay between them or between calls. -/
def twice : CallTerms := ⟨"node", "fetch", none, { attempts := 2, baseMs := 0, maxMs := 0 }, {}⟩

/-- A query of its own, and no reply in time at either attempt. -/
theorem Tried.retryable_failure_alone :
    ∃ (f : Flight) (answer : BatchAnswer) (e : RpcError), f.Tried Locks twice 2 [.error e, .error e] ∧
      f.batch.length = 1 ∧ e.retryable = true ∧
      (answer.failures f.batch.length)[0]? = some (some (.retriesExhausted 2 e.message)) ∧
      2 = twice.retry.maxAttempts := by
  let e : RpcError := Remote.errorOfMessage "eth_getLogs" "request timed out"
  have he : e.retryable = true := by decide +kernel
  let gaveUp : RpcError := .retriesExhausted 2 e.message
  let f : Flight := ⟨0, [.single Plan.youngPool ⟨5, 6⟩], ⟨.finished (.error gaveUp), 1, 0⟩⟩
  have hheard : f.MayHear (.error e) := ⟨1, .timeout, rfl⟩
  have htried : f.Tried Locks twice 2 [.error e, .error e] := by
    have hfirst := (PacedCall.Tried.fresh 0).attempt (⟨.epoch, 0⟩ : Clock) (⟨{}, 0⟩ : Gate Locks) 0 (t := twice) rfl rfl
      (Nat.le_refl 0) hheard
    rw [PacedCall.settle_retryable he] at hfirst
    have hsecond := hfirst.attempt ⟨.epoch, 0⟩ ⟨{}, 0⟩ 0 rfl rfl (Nat.le_refl 0) hheard
    rw [PacedCall.settle_retryable he] at hsecond
    exact hsecond
  have hfailed : (BatchAnswer.failures f.batch.length (.error gaveUp))[0]? = some (some gaveUp) := rfl
  have hresult : f.call.result? = some (.error gaveUp) := rfl
  have hspent := htried.retryable_failure hresult hfailed (Or.inr rfl)
  exact ⟨f, .error gaveUp, e, htried, rfl, he, hfailed, hspent.2.1 (Nat.le_refl 1)⟩

/-- What a provider may reply to two queries in one message: the logs of one, and a limit for the other. -/
def mixedReply : Remote.Reply :=
  .answer 200 ("[\x7b\"id\":1,\"result\":[]\x7d," ++
    "\x7b\"id\":2,\"error\":\x7b\"code\":-32005,\"message\":\"limit exceeded\"\x7d\x7d]").toUTF8.toList

/-- One of two queries in a message fails for good with the first reply, although there is one more attempt. -/
theorem Tried.shared_query_fails_at_once :
    ∃ (f : Flight) (answer : BatchAnswer) (e : RpcError), f.Tried Locks twice 1 [answer] ∧ f.batch.length = 2 ∧
      f.call.result? = some answer ∧ (answer.failures f.batch.length)[1]? = some (some e) ∧ e.retryable = true ∧
      1 < twice.retry.maxAttempts := by
  let batch : List (Query Entity UInt64) :=
    [.single Plan.youngPool ⟨5, 6⟩, .single { Plan.youngPool with importKey := "other", address := "0xother" } ⟨5, 6⟩]
  let e : RpcError := .transient "eth_getLogs" "limit exceeded (-32005)"
  let answer : BatchAnswer := .ok [.ok (), .error e]
  let f : Flight := ⟨0, batch, ⟨.finished answer, 0, 0⟩⟩
  have hreply : (Remote.readLogs 1 (Process.calls (.fetch 0 batch)) mixedReply).1.toOption =
      some [.ok (), .error e] := by decide +kernel
  have hheard : f.MayHear answer := by
    refine ⟨1, mixedReply, ?_⟩
    cases hread : (Remote.readLogs 1 (Process.calls (.fetch 0 batch)) mixedReply).1 with
    | error other => simp [hread, Except.toOption] at hreply
    | ok results =>
        rw [hread] at hreply
        cases hreply
        rfl
  exact ⟨f, answer, e, (PacedCall.Tried.fresh 0).attempt ⟨.epoch, 0⟩ ⟨{}, 0⟩ 0 rfl rfl (Nat.le_refl 0) hheard, rfl, rfl,
    rfl, rfl, by decide⟩

end Flight

/-! ## The flights of a pass -/

namespace Pass

variable {σ : Type} [LockService σ] {a : Assignment} {clock : Clock} {cancelled : Bool} {p : Pass}

/-- Passes that a provider for raw logs may lead to: it may be slow, and answer anything at any time. -/
inductive Reached (σ : Type) [LockService σ] (a : Assignment) : Pass → Prop where
  | opening : Reached σ a .opening
  | step {p : Pass} {act : Act σ Pass} (clock : Clock) (cancelled : Bool) (s : Shared σ) (h : Reached σ a p)
      (hact : p.step a clock cancelled = some act) : Reached σ a (act.run s).1
  | tip {p : Pass} (clock : Clock) (answer : Except RpcError UInt64) (s : Shared σ) (h : Reached σ a p) :
      Reached σ a ((answerTip (σ := σ) a clock answer p).run s).1
  | fetch {p : Pass} (clock : Clock) (place : Nat) (answer : BatchAnswer) (s : Shared σ) (h : Reached σ a p)
      (hanswer : ∀ f ∈ p.flights, f.place = place → f.MayHear answer) :
      Reached σ a ((answerFetch (σ := σ) a clock place answer p).run s).1

/-- All flights of the pass are on their way. -/
def Trying (σ : Type) [LockService σ] (a : Assignment) (p : Pass) : Prop :=
  ∀ f ∈ p.flights, ∃ begun heard, f.Tried σ (fetchTerms a) begun heard

theorem trying_of_nil (h : p.flights = []) : Trying σ a p := by
  intro f hf
  rw [h] at hf
  cases hf

omit [LockService σ] in
theorem flights_opened (s : Shared σ) : ((opened (σ := σ) a clock).run s).1.flights = [] := by
  unfold opened
  split
  · rfl
  · split
    · rfl
    · simp only [StateT.run_bind, StateT.run_get, pure_bind]
      cases s.cache.word? clock.timer (tipKey a) with
      | none => rfl
      | some latest => rfl

omit [LockService σ] in
theorem flights_tipKnown (config : Plan.BatchConfig) (r : Except RpcError UInt64) (s : Shared σ) :
    ((tipKnown (σ := σ) a config clock r).run s).1.flights = [] := by
  cases r with
  | error e => rfl
  | ok latest => rfl

theorem trying_fetchStep {f : Fetching} (h : Trying σ a (.fetching f)) {act : Act σ Pass}
    (hact : FetchStep a clock cancelled f act) (s : Shared σ) : Trying σ a (act.run s).1 := by
  cases hact with
  | deliver before after flight r hf hr hdelivery =>
      intro g hg
      refine h g ?_
      rw [flights, hf]
      exact (List.mem_append.1 hg).elim (List.mem_append_left _)
        fun hg => List.mem_append_right _ (List.mem_cons_of_mem _ hg)
  | begin place batch waiting hnone hgo hroom hwaiting =>
      intro g hg
      rcases List.mem_append.1 hg with hg | hg
      · exact h g hg
      · rw [List.mem_singleton.1 hg]
        exact ⟨0, [], .fresh clock.timer⟩
  | call before after flight hnone hf hdue =>
      intro g hg
      have hrest : g ∈ before ++ flight :: after → g ∈ (Pass.fetching f).flights := fun hg => by rwa [flights, hf]
      rcases List.mem_append.1 hg with hg | hg
      · exact h g (hrest (List.mem_append_left _ hg))
      · rcases List.mem_cons.1 hg with rfl | hg
        · obtain ⟨begun, heard, htried⟩ := h flight (mem_flying hf)
          exact ⟨_, heard, htried.step clock s.gate hdue⟩
        · exact h g (hrest (List.mem_append_right _ (List.mem_cons_of_mem _ hg)))
  | close hnone hempty => exact trying_of_nil rfl

theorem trying_step (h : Trying σ a p) {act : Act σ Pass} (hact : p.step a clock cancelled = some act)
    (s : Shared σ) : Trying σ a (act.run s).1 := by
  cases p with
  | opening =>
      cases hact
      exact trying_of_nil (flights_opened s)
  | tip config call =>
      simp only [step] at hact
      split at hact
      · cases hact
        exact trying_of_nil (flights_tipKnown config _ s)
      · split at hact
        · cases hact
          exact trying_of_nil rfl
        · cases hact
  | fetching f => exact trying_fetchStep h (fetchStep_of_step hact) s
  | finished result => cases hact

theorem trying_answerTip (h : Trying σ a p) (answer : Except RpcError UInt64) (s : Shared σ) :
    Trying σ a ((answerTip (σ := σ) a clock answer p).run s).1 := by
  cases p with
  | tip config call => exact trying_of_nil rfl
  | opening => exact h
  | fetching f => exact h
  | finished result => exact h

theorem trying_answerFetch (h : Trying σ a p) {place : Nat} {answer : BatchAnswer}
    (hanswer : ∀ f ∈ p.flights, f.place = place → f.MayHear answer) (s : Shared σ) :
    Trying σ a ((answerFetch (σ := σ) a clock place answer p).run s).1 := by
  cases p with
  | fetching f =>
      cases hpick : pick? (·.place == place) f.flying with
      | none =>
          simp only [answerFetch, hpick]
          exact h
      | some found =>
          obtain ⟨before, flight, after⟩ := found
          obtain ⟨hf, hplace⟩ := eq_of_pick? hpick
          have hin : flight ∈ (Pass.fetching f).flights := mem_flying hf
          simp only [answerFetch, hpick]
          intro g hg
          rcases List.mem_append.1 hg with hg | hg
          · refine h g ?_
            rw [flights, hf]
            exact (List.mem_append.1 hg).elim (List.mem_append_left _)
              fun hg => List.mem_append_right _ (List.mem_cons_of_mem _ hg)
          · rw [List.mem_singleton.1 hg]
            obtain ⟨begun, heard, htried⟩ := h flight hin
            cases hcalling : flight.call.isCalling with
            | true => exact ⟨begun, _, htried.told clock.timer answer hcalling (hanswer flight hin (eq_of_beq hplace))⟩
            | false =>
                have hsame := PacedCall.answered_of_not_calling (fetchTerms a) clock.timer answer hcalling
                exact ⟨begun, heard, hsame.symm ▸ htried⟩
  | opening => exact h
  | tip config call => exact h
  | finished result => exact h

/-- Every flight of a pass goes its way as a call for raw logs does. -/
theorem Reached.trying (h : Reached σ a p) : Trying σ a p := by
  induction h with
  | opening => exact trying_of_nil rfl
  | step clock cancelled s h hact ih => exact trying_step ih hact s
  | tip clock answer s h ih => exact trying_answerTip ih answer s
  | fetch clock place answer s h hanswer ih => exact trying_answerFetch ih hanswer s

end Pass

end Backfill
