import Backfill.Remote.Call

/-!
# What a provider's replies amount to

Errors that come from a reply say what went wrong this once; none of them says that a call gave up. A reply to one
call is its result or an error. A reply to several calls at once is an error only as a whole; when it can be read it
is one result a call, whatever the results are.
-/

namespace Backfill

/-- The error says that attempts are used up. -/
def RpcError.givesUp : RpcError → Bool
  | retriesExhausted .. => true
  | _ => false

namespace Remote

variable {β : Type} [Decode β] {operation : String} {e : RpcError} {reply : Reply} {c : Call} {first : Nat}
  {calls : List Call}

theorem givesUp_errorOfMessage (operation message : String) : (errorOfMessage operation message).givesUp = false := by
  rw [errorOfMessage]
  split <;> rfl

theorem givesUp_errorOfFault (operation : String) (f : Fault) : (errorOfFault operation f).givesUp = false := by
  rw [errorOfFault]
  split
  · rfl
  · exact givesUp_errorOfMessage ..

theorem givesUp_of_document (h : reply.document operation = .error e) : e.givesUp = false := by
  cases reply with
  | answer status body =>
      simp only [Reply.document] at h
      split at h
      · split at h
        · cases h
        · cases h
          exact givesUp_errorOfFault ..
      · cases h
        exact givesUp_errorOfMessage ..
  | timeout =>
      cases h
      exact givesUp_errorOfFault ..
  | broken text =>
      cases h
      exact givesUp_errorOfFault ..

theorem givesUp_of_decodeFor {d : Json} (h : (decodeFor operation d : Except RpcError β) = .error e) :
    e.givesUp = false := by
  rw [decodeFor] at h
  cases hd : (decode? d : Option β) with
  | none =>
      rw [hd] at h
      cases h
      rfl
  | some x =>
      rw [hd] at h
      cases h

theorem givesUp_of_toResult {r : Response} (h : r.toResult operation = .error e) : e.givesUp = false := by
  rw [Response.toResult] at h
  split at h
  · cases h
    exact givesUp_errorOfMessage ..
  · cases h
  · cases h
    rfl

theorem error_of_bind {γ δ : Type} {x : Except RpcError γ} {f : γ → Except RpcError δ} (h : x >>= f = .error e) :
    x = .error e ∨ ∃ y, x = .ok y ∧ f y = .error e := by
  cases x with
  | error other =>
      cases h
      exact Or.inl rfl
  | ok y => exact Or.inr ⟨y, rfl, h⟩

theorem givesUp_of_readOne (h : (readOne c reply : Except RpcError β) = .error e) : e.givesUp = false := by
  rw [readOne] at h
  rcases error_of_bind h with h | ⟨d, -, h⟩
  · exact givesUp_of_document h
  · rcases error_of_bind h with h | ⟨response, -, h⟩
    · exact givesUp_of_decodeFor h
    · rcases error_of_bind h with h | ⟨result, -, h⟩
      · exact givesUp_of_toResult h
      · exact givesUp_of_decodeFor h

theorem givesUp_of_readMany (h : readMany first calls reply = .error e) : e.givesUp = false := by
  rw [readMany] at h
  rcases error_of_bind h with h | ⟨d, -, h⟩
  · exact givesUp_of_document h
  · rcases error_of_bind h with h | ⟨responses, -, h⟩
    · exact givesUp_of_decodeFor h
    · cases h

@[simp] theorem length_collect (id : Nat) (responses : Std.TreeMap Nat Response) (calls : List Call) :
    (collect id responses calls).length = calls.length := by
  induction calls generalizing id responses with
  | nil => rfl
  | cons c calls ih => rw [collect, List.length_cons, List.length_cons, ih]

theorem givesUp_of_mem_collect {id : Nat} {responses : Std.TreeMap Nat Response}
    (he : .error e ∈ collect id responses calls) : e.givesUp = false := by
  induction calls generalizing id responses with
  | nil => cases he
  | cons c calls ih =>
      rw [collect] at he
      rcases List.mem_cons.1 he with he | he
      · split at he
        · exact givesUp_of_toResult he.symm
        · cases he
          rfl
      · exact ih he

/-- A reply to several calls that can be read. -/
theorem readMany_eq_ok {results : List (Except RpcError Json)} (h : readMany first calls reply = .ok results) :
    results.length = calls.length ∧ ∀ e, .error e ∈ results → e.givesUp = false := by
  rw [readMany] at h
  cases hd : reply.document "batch" with
  | error e => simp [hd, bind, Except.bind] at h
  | ok d =>
      cases hr : (decodeFor "batch" d : Except RpcError (List Response)) with
      | error e => simp [hd, hr, bind, Except.bind] at h
      | ok responses =>
          simp only [hd, hr, bind, Except.bind, pure, Except.pure, Except.ok.injEq] at h
          subst h
          exact ⟨length_collect .., fun e he => givesUp_of_mem_collect he⟩

/-! ## Raw logs -/

theorem givesUp_of_readLogs (h : (readLogs first calls reply).1 = .error e) : e.givesUp = false := by
  match calls, h with
  | [], h => cases h
  | [c], h =>
      cases hone : (readOne c reply : Except RpcError Json) with
      | error other =>
          simp only [readLogs, hone, Except.map, Except.error.injEq] at h
          exact h ▸ givesUp_of_readOne hone
      | ok logs => simp [readLogs, hone, Except.map] at h
  | c :: d :: rest, h =>
      cases hmany : readMany first (c :: d :: rest) reply with
      | error other =>
          simp only [readLogs, hmany, Except.map, Except.error.injEq] at h
          exact h ▸ givesUp_of_readMany hmany
      | ok results => simp [readLogs, hmany, Except.map] at h

/-- There is a result for each call, and only calls that were sent with others have an error for one. -/
theorem readLogs_eq_ok {results : List (Except RpcError Unit)} (h : (readLogs first calls reply).1 = .ok results) :
    results.length = calls.length ∧ ∀ e, .error e ∈ results → 2 ≤ calls.length ∧ e.givesUp = false := by
  match calls, h with
  | [], h =>
      cases h
      exact ⟨rfl, nofun⟩
  | [c], h =>
      cases hone : (readOne c reply : Except RpcError Json) with
      | error other => simp [readLogs, hone, Except.map] at h
      | ok logs =>
          simp only [readLogs, hone, Except.map, List.map_cons, List.map_nil, Except.ok.injEq] at h
          subst h
          exact ⟨rfl, fun e he => by simp at he⟩
  | c :: d :: rest, h =>
      cases hmany : readMany first (c :: d :: rest) reply with
      | error other => simp [readLogs, hmany, Except.map] at h
      | ok items =>
          simp only [readLogs, hmany, Except.map, Except.ok.injEq] at h
          subst h
          obtain ⟨hlen, herrors⟩ := readMany_eq_ok hmany
          refine ⟨by rw [List.length_map, hlen], fun e he => ⟨by simp, ?_⟩⟩
          obtain ⟨r, hr, he⟩ := List.mem_map.1 he
          cases r with
          | error other =>
              cases he
              exact herrors _ hr
          | ok logs => cases he

end Remote

end Backfill
