import Backfill.Proofs.Store

/-!
# Calls of many clients

Clients create states and merge outcomes; the store serves one call after another, in any order. No order
loses an update: what is covered under a key at the end depends only on what was covered there at first
and on the values of the ranges that were merged.
-/

namespace Backfill.Store

/-- A call of some client. -/
inductive Call where
  | create (state : ImportState)
  | merge (key : String) (outcomes : List (Outcome UInt64)) (now : Timestamp)

/-- The store after a call. -/
def serve (s : Store) : Call → Store
  | .create state => (s.createIfMissing state).2
  | .merge key outcomes now => s.afterMerge (s.merge key outcomes now)

/-- The store after some calls, in the order in which they are served. -/
def serveAll (s : Store) (calls : List Call) : Store := calls.foldl serve s

/-- The outcomes of a call, if it is a merge under the key and goes through. -/
def acceptedNow (key : String) (s : Store) : Call → List (List (Outcome UInt64))
  | .create _ => []
  | .merge k outcomes now => if k = key ∧ (s.merge k outcomes now).isOk then [outcomes] else []

/-- The groups of outcomes that are merged under a key, merge by merge. -/
def accepted (key : String) (s : Store) : List Call → List (List (Outcome UInt64))
  | [] => []
  | call :: rest => acceptedNow key s call ++ accepted key (s.serve call) rest

/-- The state that stands first under a key: the one at the start, or else the first one created. -/
def origin? (key : String) (s : Store) : List Call → Option ImportState
  | [] => s.get? key
  | call :: rest => (s.get? key).or (origin? key (s.serve call) rest)

theorem serveAll_cons (s : Store) (call : Call) (rest : List Call) :
    s.serveAll (call :: rest) = (s.serve call).serveAll rest := rfl

theorem serveAll_append (s : Store) (a b : List Call) : s.serveAll (a ++ b) = (s.serveAll a).serveAll b :=
  List.foldl_append

theorem origin?_of_get? {key : String} {s : Store} {state : ImportState} (h : s.get? key = some state)
    (calls : List Call) : origin? key s calls = some state := by
  cases calls with
  | nil => exact h
  | cons call rest => simp [origin?, h]

/-! ## One call -/

theorem serve_of_refused {s : Store} {key : String} {outcomes : List (Outcome UInt64)} {now : Timestamp}
    (h : (s.merge key outcomes now).isOk = false) : s.serve (.merge key outcomes now) = s := by
  cases hm : s.merge key outcomes now with
  | error e => rw [serve, hm, afterMerge]
  | ok p => simp [hm, Except.isOk, Except.toBool] at h

theorem get?_serve_create {s : Store} {state known : ImportState} {key : String} (h : s.get? key = some known) :
    (s.serve (.create state)).get? key = some known := by
  rw [serve, get?_createIfMissing, h]
  rfl

/-- What a call does to the state under a key: nothing, or it merges the outcomes that it counts for. -/
theorem serve_cases {s : Store} {key : String} {state : ImportState} (h : s.get? key = some state) (call : Call) :
    (acceptedNow key s call = [] ∧ (s.serve call).get? key = some state) ∨
    ∃ outcomes merged, acceptedNow key s call = [outcomes] ∧ (s.serve call).get? key = some merged ∧
      state.Follows outcomes merged := by
  cases call with
  | create new => exact Or.inl ⟨rfl, get?_serve_create h⟩
  | merge k outcomes now =>
      by_cases hk : k = key
      · subst hk
        cases hm : s.merge k outcomes now with
        | error e =>
            left
            have hok : (s.merge k outcomes now).isOk = false := by simp [hm, Except.isOk, Except.toBool]
            exact ⟨by simp [acceptedNow, hok], by rw [serve_of_refused hok, h]⟩
        | ok p =>
            right
            obtain ⟨st, hst, ha, hset⟩ := merge_eq_ok hm
            rw [h] at hst
            cases hst
            have hfollows := (ImportState.apply_eq_ok ha).2
            refine ⟨outcomes, p.1, by simp [acceptedNow, hm, Except.isOk, Except.toBool], ?_, hfollows⟩
            rw [serve, hm, afterMerge, hset, Keyed.get?_set_self]
      · left
        exact ⟨by simp [acceptedNow, hk], by rw [serve, get?_afterMerge_of_ne (Ne.symm hk), h]⟩

theorem acceptedNow_of_get?_eq_none {s : Store} {key : String} (h : s.get? key = none) (call : Call) :
    acceptedNow key s call = [] := by
  cases call with
  | create state => rfl
  | merge k outcomes now =>
      simp only [acceptedNow]
      rw [if_neg]
      rintro ⟨rfl, hok⟩
      obtain ⟨state, hs, _⟩ := merge_isOk_iff.1 hok
      rw [h] at hs
      cases hs

theorem Filed.serve {s : Store} (h : s.Filed) (call : Call) : (s.serve call).Filed := by
  cases call with
  | create state => exact h.createIfMissing state
  | merge key outcomes now => exact h.afterMerge key outcomes now

/-! ## Many calls -/

theorem covered_serveAll {key : String} (calls : List Call) {s : Store} {state : ImportState}
    (h : s.get? key = some state) :
    ∃ last, (s.serveAll calls).get? key = some last ∧ last.importKey = state.importKey ∧
      (accepted key s calls = [] → last.covered = state.covered) ∧
      (accepted key s calls ≠ [] → last.covered = Range.merge
        (state.covered ++ Outcome.succeededFor state.importKey (accepted key s calls).flatten)) := by
  induction calls generalizing s state with
  | nil => exact ⟨state, h, rfl, fun _ => rfl, fun hne => absurd rfl hne⟩
  | cons call rest ih =>
      rw [serveAll_cons, accepted]
      rcases serve_cases h call with ⟨hacc, hget⟩ | ⟨outcomes, merged, hacc, hget, hfollows⟩
      · rw [hacc, List.nil_append]
        exact ih hget
      · obtain ⟨last, hlast, hlkey, hnone, hsome⟩ := ih hget
        rw [hfollows.importKey] at hlkey hsome
        refine ⟨last, hlast, hlkey, by simp [hacc], fun _ => ?_⟩
        rw [hacc, List.flatten_append, Outcome.succeededFor_append, List.flatten_singleton]
        by_cases hrest : accepted key (s.serve call) rest = []
        · rw [hnone hrest, hfollows.covered, hrest]
          simp [Outcome.succeededFor]
        · rw [hsome hrest, hfollows.covered, Range.merge_eq_iff]
          simp only [Range.values_append, Range.values_merge, Set.union_assoc]

theorem covered_of_accepted {key : String} {s : Store} {calls : List Call} (h : accepted key s calls ≠ []) :
    ∃ first, origin? key s calls = some first ∧ (s.serveAll calls).covered key = Range.merge
      (first.covered ++ Outcome.succeededFor first.importKey (accepted key s calls).flatten) := by
  induction calls generalizing s with
  | nil => exact absurd rfl h
  | cons call rest ih =>
      cases hs : s.get? key with
      | some state =>
          obtain ⟨last, hlast, _, _, hsome⟩ := covered_serveAll (call :: rest) hs
          exact ⟨state, origin?_of_get? hs _, by rw [covered_of_get? hlast, hsome h]⟩
      | none =>
          have hnow := acceptedNow_of_get?_eq_none hs call
          rw [accepted, hnow, List.nil_append] at h ⊢
          rw [serveAll_cons, origin?, hs, Option.none_or]
          exact ih h

theorem values_covered_serveAll (key : String) (s : Store) (calls : List Call) :
    Range.values (s.covered key) ⊆ Range.values ((s.serveAll calls).covered key) := by
  cases hs : s.get? key with
  | none => simp [covered, hs]
  | some state =>
      obtain ⟨last, hlast, _, hnone, hsome⟩ := covered_serveAll calls hs
      rw [covered_of_get? hs, covered_of_get? hlast]
      by_cases h : accepted key s calls = []
      · rw [hnone h]
      · rw [hsome h, Range.values_merge, Range.values_append]
        exact Set.subset_union_left

theorem origin?_importKey {key : String} {s : Store} (hs : s.Filed) {calls : List Call} {first : ImportState}
    (h : origin? key s calls = some first) : first.importKey = key := by
  induction calls generalizing s with
  | nil => exact hs key first h
  | cons call rest ih =>
      rw [origin?, Option.or_eq_some_iff] at h
      rcases h with h | ⟨_, h⟩
      · exact hs key first h
      · exact ih (hs.serve call) h

/-- No order of calls loses an update: a refused merge changes nothing, a merge changes only its own key and
creating a state never replaces one; what is covered at the end under a key follows from what was covered
first and from the ranges merged, in whatever order and groups, and nothing covered is ever lost. -/
theorem no_lost_update (s : Store) (calls : List Call) :
    (∀ before key outcomes now after, calls = before ++ .merge key outcomes now :: after →
      let here := s.serveAll before
      ((here.merge key outcomes now).isOk = true ↔ ∃ state, here.get? key = some state ∧ state.RecordsBlocks) ∧
      ((here.merge key outcomes now).isOk = false → here.serve (.merge key outcomes now) = here) ∧
      ∀ other, other ≠ key → (here.serve (.merge key outcomes now)).get? other = here.get? other) ∧
    (∀ before state after, calls = before ++ .create state :: after →
      let here := s.serveAll before
      ∀ key known, here.get? key = some known → (here.serve (.create state)).get? key = some known) ∧
    (∀ key, accepted key s calls ≠ [] → ∃ first, origin? key s calls = some first ∧
      (s.Filed → first.importKey = key) ∧ (s.serveAll calls).covered key = Range.merge
        (first.covered ++ Outcome.succeededFor first.importKey (accepted key s calls).flatten)) ∧
    (∀ key s' calls', accepted key s calls ≠ [] → accepted key s' calls' ≠ [] →
      origin? key s' calls' = origin? key s calls →
      (accepted key s' calls').flatten.Perm (accepted key s calls).flatten →
      (s'.serveAll calls').covered key = (s.serveAll calls).covered key) ∧
    ∀ key before after, calls = before ++ after →
      Range.values ((s.serveAll before).covered key) ⊆ Range.values ((s.serveAll calls).covered key) := by
  refine ⟨?_, ?_, ?_, ?_, ?_⟩
  · intro before key outcomes now after _
    exact ⟨merge_isOk_iff, serve_of_refused, fun other ho => get?_afterMerge_of_ne ho outcomes now⟩
  · intro before state after _ here key known hk
    exact get?_serve_create hk
  · intro key hacc
    obtain ⟨first, hfirst, hcov⟩ := covered_of_accepted hacc
    exact ⟨first, hfirst, fun hs => origin?_importKey hs hfirst, hcov⟩
  · intro key s' calls' hacc hacc' horigin hperm
    obtain ⟨first, hfirst, hcov⟩ := covered_of_accepted hacc
    obtain ⟨first', hfirst', hcov'⟩ := covered_of_accepted hacc'
    rw [horigin, hfirst, Option.some.injEq] at hfirst'
    subst hfirst'
    rw [hcov, hcov', Range.merge_eq_iff, Range.values_append, Range.values_append,
      Range.values_perm (Outcome.succeededFor_perm _ hperm)]
  · rintro key before after rfl
    rw [serveAll_append]
    exact values_covered_serveAll key _ after

end Backfill.Store
