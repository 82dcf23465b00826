import Backfill.Proofs.Remote
import Mathlib.Data.List.Basic

/-!
# Batches are matched by number

A provider may answer a batch in any order, with responses missing, repeated or made up. Each call takes the last
response under its number, so only these responses matter, and none is taken twice.
-/

namespace Backfill.Remote

variable {n first : Nat} {responses others : List Response} {calls : List Call} {reply : Reply}

/-- The responses with this number, with their places. -/
def answersTo (n : Nat) (responses : List Response) : List (Response × Nat) :=
  responses.zipIdx.filter fun r => r.1.number? == some n

/-- The result of a call that this response, if any, answers. -/
def Call.resultOf (c : Call) (r : Option Response) : Except RpcError Json :=
  r.elim (.error (.invalidResponse c.method "missing from batch response")) (·.toResult c.method)

/-- The results of calls numbered from `first` on: each is that of the last response with its number. -/
def matched (first : Nat) (calls : List Call) (responses : List Response) : List (Except RpcError Json) :=
  (calls.zipIdx first).map fun call => call.1.resultOf ((answersTo call.2 responses).getLast?.map (·.1))

/-- The response has the number of one of so many calls numbered from `first` on. -/
def Response.answersOneOf (first count : Nat) (r : Response) : Bool :=
  r.number?.any fun n => decide (first ≤ n) && decide (n < first + count)

/-! ## Looking up -/

theorem getElem?_insertMany (responses : List Response) (t : Std.TreeMap Nat Response) :
    (t.insertMany (responses.filterMap fun r => r.number?.map (·, r)))[n]? =
      (responses.filter fun r => r.number? == some n).getLast?.or t[n]? := by
  induction responses generalizing t with
  | nil => rfl
  | cons r responses ih =>
      cases hnumber : r.number? with
      | none =>
          rw [List.filterMap_cons_none (by rw [hnumber]; rfl), ih, List.filter_cons_of_neg (by simp [hnumber])]
      | some m =>
          rw [List.filterMap_cons_some (by rw [hnumber]; rfl), Std.TreeMap.insertMany_cons, ih,
            Std.TreeMap.getElem?_insert]
          by_cases hm : m = n
          · subst hm
            rw [List.filter_cons_of_pos (by simp [hnumber]), List.getLast?_cons, if_pos Std.compare_self]
            cases (responses.filter fun r => r.number? == some m).getLast? <;> rfl
          · rw [List.filter_cons_of_neg (by simp [hnumber, hm]), if_neg (by simpa [Nat.compare_eq_eq] using hm)]

theorem map_answersTo (n : Nat) (responses : List Response) :
    (answersTo n responses).map (·.1) = responses.filter fun r => r.number? == some n := by
  conv_rhs => rw [← List.zipIdx_map_fst 0 responses, List.filter_map]
  rfl

theorem getElem?_numbered (n : Nat) (responses : List Response) :
    (numbered responses)[n]? = (answersTo n responses).getLast?.map (·.1) := by
  rw [← List.getLast?_map, map_answersTo, numbered, Std.TreeMap.ofList_eq_insertMany_empty, getElem?_insertMany,
    Std.TreeMap.getElem?_emptyc, Option.or_none]

/-- A response that one call takes away is not missed by the later ones: their numbers differ. -/
theorem collect_eq (id : Nat) (table : Std.TreeMap Nat Response) (calls : List Call) :
    collect id table calls = (calls.zipIdx id).map fun call => call.1.resultOf table[call.2]? := by
  induction calls generalizing id table with
  | nil => rfl
  | cons c calls ih =>
      rw [collect, ih, List.zipIdx_cons, List.map_cons]
      refine congrArg₂ List.cons ?_ (List.map_congr_left fun call hc => ?_)
      · simp only [Call.resultOf]
        cases table[id]? <;> rfl
      · have hn := List.le_snd_of_mem_zipIdx hc
        have hne : ¬ compare id call.2 = .eq := by
          rw [Nat.compare_eq_eq]
          omega
        simp only [Std.TreeMap.getElem?_erase, if_neg hne]

/-- The reply is this array, and its items can be read as these responses. -/
structure Reply.Holds (reply : Reply) (array : List Json) (responses : List Response) : Prop where
  document : reply.document "batch" = .ok (.items array)
  decode : decode? (Document.items array) = some responses

theorem Reply.Holds.readMany_eq {array : List Json} (h : reply.Holds array responses) :
    readMany first calls reply = .ok (matched first calls responses) := by
  have hmatched : collect first (numbered responses) calls = matched first calls responses := by
    simp only [collect_eq, getElem?_numbered]
    rfl
  rw [readMany, h.document, ← hmatched]
  simp only [bind, Except.bind, decodeFor, h.decode, Option.elim_some, pure, Except.pure]

theorem exists_array_of_decode? {d : Json} (h : decode? d = some responses) : ∃ array, d = .items array := by
  cases d with
  | items array => exact ⟨array, rfl⟩
  | scalar s => cases h
  | fields xs => cases h

/-- Only an array of responses can be read. -/
theorem exists_holds {results : List (Except RpcError Json)} (h : readMany first calls reply = .ok results) :
    ∃ array responses, reply.Holds array responses := by
  rw [readMany] at h
  cases hd : reply.document "batch" with
  | error e => simp [hd, bind, Except.bind] at h
  | ok d =>
      cases hr : (decode? d : Option (List Response)) with
      | none => simp [hd, decodeFor, hr, bind, Except.bind] at h
      | some responses =>
          obtain ⟨array, rfl⟩ := exists_array_of_decode? hr
          exact ⟨array, responses, hd, hr⟩

/-! ## What does not matter -/

/-- Only the responses under the numbers of the calls matter. -/
theorem matched_congr (h : ∀ n, first ≤ n → n < first + calls.length →
    (others.filter fun r => r.number? == some n) = responses.filter fun r => r.number? == some n) :
    matched first calls others = matched first calls responses := by
  refine List.map_congr_left fun call hc => ?_
  have hn := h call.2 (List.le_snd_of_mem_zipIdx hc) (List.snd_lt_add_of_mem_zipIdx hc)
  simp only [← List.getLast?_map, map_answersTo, hn]

/-- Where no two responses have the same number, their order makes no difference. -/
theorem matched_perm (h : others.Perm responses) (hdistinct : (responses.filterMap Response.number?).Nodup) :
    matched first calls others = matched first calls responses := by
  refine matched_congr fun n _ _ => ?_
  have hperm := h.filter fun r => r.number? == some n
  have hapart := (List.pairwise_filterMap.1 hdistinct).filter fun r => r.number? == some n
  have hnumber : ∀ r ∈ responses.filter fun r => r.number? == some n, r.number? = some n :=
    fun r hr => eq_of_beq (List.mem_filter.1 hr).2
  -- there is at most one with this number
  match hanswers : responses.filter fun r => r.number? == some n with
  | [] =>
      rw [hanswers] at hperm ⊢
      exact hperm.eq_nil
  | [r] =>
      rw [hanswers] at hperm ⊢
      exact hperm.eq_singleton
  | r :: s :: rest =>
      rw [hanswers] at hapart hnumber
      have hne := (List.pairwise_cons.1 hapart).1 s List.mem_cons_self
      exact absurd rfl (hne n (hnumber r List.mem_cons_self) n (hnumber s (List.mem_cons_of_mem _ List.mem_cons_self)))

/-- Responses under numbers of no call make no difference. -/
theorem matched_of_own
    (h : others.filter (·.answersOneOf first calls.length) = responses.filter (·.answersOneOf first calls.length)) :
    matched first calls others = matched first calls responses := by
  refine matched_congr fun n hfirst hlast => ?_
  have hown : ∀ responses : List Response, (responses.filter fun r => r.number? == some n) =
      (responses.filter (·.answersOneOf first calls.length)).filter fun r => r.number? == some n := by
    intro responses
    rw [List.filter_filter]
    refine List.filter_congr fun r _ => ?_
    by_cases hr : r.number? = some n
    · simp [Response.answersOneOf, hr, hfirst, hlast]
    · simp [hr]
  rw [hown others, h, ← hown responses]

theorem exists_mapM_of_perm {α β : Type} {f : α → Option β} {xs ys : List α} (h : xs.Perm ys) {results : List β}
    (hys : ys.mapM f = some results) : ∃ others, xs.mapM f = some others ∧ others.Perm results := by
  induction h generalizing results with
  | nil => exact ⟨results, hys, .refl _⟩
  | cons x _ ih =>
      simp only [List.mapM_cons, Option.bind_eq_bind, Option.bind_eq_some_iff, Option.pure_def,
        Option.some.injEq] at hys
      obtain ⟨y, hy, rest, hrest, rfl⟩ := hys
      obtain ⟨others, hothers, hperm⟩ := ih hrest
      exact ⟨y :: others, by simp [hy, hothers], hperm.cons y⟩
  | swap x y l =>
      simp only [List.mapM_cons, Option.bind_eq_bind, Option.bind_eq_some_iff, Option.pure_def,
        Option.some.injEq] at hys
      obtain ⟨a, ha, _, ⟨b, hb, rest, hrest, rfl⟩, rfl⟩ := hys
      exact ⟨b :: a :: rest, by simp [ha, hb, hrest], .swap _ _ _⟩
  | trans _ _ ih ih' =>
      obtain ⟨middle, hmiddle, hperm⟩ := ih' hys
      obtain ⟨others, hothers, hperm'⟩ := ih hmiddle
      exact ⟨others, hothers, hperm'.trans hperm⟩

theorem document?_many (first : Nat) (hcalls : calls ≠ []) : (Message.many calls).document? first =
    some (.items ((calls.zipIdx first).map fun call => call.1.document call.2)) := by
  cases calls with
  | nil => exact absurd rfl hcalls
  | cons c calls =>
      rw [List.zipIdx_eq_map_add (i := first), List.map_map]
      rfl

theorem eq_of_mem_answersTo {m place : Nat} {r s : Response} (hr : (r, place) ∈ answersTo n responses)
    (hs : (s, place) ∈ answersTo m responses) : n = m := by
  obtain ⟨hr, hn⟩ := List.mem_filter.1 hr
  obtain ⟨hs, hm⟩ := List.mem_filter.1 hs
  have hsame : some r = some s := by
    rw [← List.mk_mem_zipIdx_iff_getElem?.1 hr, List.mk_mem_zipIdx_iff_getElem?.1 hs]
  cases hsame
  exact Option.some.inj ((eq_of_beq hn).symm.trans (eq_of_beq hm))

/-- A batch is answered by number. For every reply that is an array of responses there is one result a call, in the
order of the calls: that of the last response with the number under which the call was sent, or an error that it is
missing. No response has the numbers of two calls. So another order of responses with different numbers gives the same
results, and so do responses in addition that have no call's number. -/
theorem batch_matched_by_number {array : List Json} (hcalls : calls ≠ []) (h : reply.Holds array responses) :
    (Message.many calls).document? first = some (.items ((calls.zipIdx first).map fun call => call.1.document call.2)) ∧
    readMany first calls reply = .ok (matched first calls responses) ∧
    (matched first calls responses).length = calls.length ∧
    (∀ n m r s place, (r, place) ∈ answersTo n responses → (s, place) ∈ answersTo m responses → n = m) ∧
    (∀ (other : Reply) (array' : List Json), other.document "batch" = .ok (.items array') → array'.Perm array →
      (responses.filterMap Response.number?).Nodup → readMany first calls other = readMany first calls reply) ∧
    ∀ (other : Reply) (array' : List Json) (responses' : List Response), other.Holds array' responses' →
      responses'.filter (·.answersOneOf first calls.length) = responses.filter (·.answersOneOf first calls.length) →
      readMany first calls other = readMany first calls reply := by
  refine ⟨document?_many first hcalls, h.readMany_eq, by rw [matched, List.length_map, List.length_zipIdx],
    fun _ _ _ _ _ => eq_of_mem_answersTo, fun other array' hother hperm hdistinct => ?_,
    fun other array' responses' hother hown => ?_⟩
  · obtain ⟨responses', hdecode, hperm⟩ := exists_mapM_of_perm hperm h.decode
    have hother : other.Holds array' responses' := ⟨hother, hdecode⟩
    rw [hother.readMany_eq, h.readMany_eq, matched_perm hperm hdistinct]
  · rw [hother.readMany_eq, h.readMany_eq, matched_of_own hown]

/-- The second call is answered first, the first one twice, the third never, and one response is for no call. -/
def shuffledReply : Reply :=
  .answer 200 ("[\x7b\"id\":2,\"result\":\"b\"\x7d,\x7b\"id\":1,\"result\":\"a\"\x7d," ++
    "\x7b\"id\":9\x7d,\x7b\"id\":1,\"result\":\"c\"\x7d]").toUTF8.toList

def threeCalls : List Call := List.replicate 3 ⟨"eth_call", .items []⟩

theorem batch_matched_by_number_shuffled :
    threeCalls ≠ [] ∧
    (∃ array responses, shuffledReply.Holds array responses ∧
      readMany 1 threeCalls shuffledReply = .ok (matched 1 threeCalls responses)) ∧
    (readMany 1 threeCalls shuffledReply).toOption.map (·.map (Except.map Document.text?)) =
      some [.ok (some "c"), .ok (some "b"), .error (.invalidResponse "eth_call" "missing from batch response")] := by
  have hcalls : threeCalls ≠ [] := List.cons_ne_nil _ _
  have hresults : (readMany 1 threeCalls shuffledReply).toOption.map (·.map (Except.map Document.text?)) =
      some [.ok (some "c"), .ok (some "b"), .error (.invalidResponse "eth_call" "missing from batch response")] := by
    decide +kernel
  refine ⟨hcalls, ?_, hresults⟩
  cases hread : readMany 1 threeCalls shuffledReply with
  | error e => simp [hread, Except.toOption] at hresults
  | ok results =>
      obtain ⟨array, responses, h⟩ := exists_holds hread
      exact ⟨array, responses, h, hread ▸ (batch_matched_by_number hcalls h).2.1⟩

end Backfill.Remote
