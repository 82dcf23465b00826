import Backfill.Proofs.Document.Words
import Backfill.Proofs.Pass.Closing

/-!
# Searches for the newest block

A pass that does not find the newest block in the cache searches for it, and keeps what it is told for the other
passes of the chain. Until that expires no pass begins a search. Nothing is in the cache while the first search is
still under way, so the passes that look in the meantime search as well.
-/

namespace Backfill

/-! ## Kept numbers -/

namespace Cache

/-- A number that was kept is there until it expires. -/
theorem word?_of_get? {c : Cache} {key : String} {n : UInt64} {expires : Nat}
    (h : c.get? key = some ⟨(Json.ofWord n).compact, expires⟩) (timer : Nat) :
    c.word? timer key = if timer < expires then some n else none := by
  rw [word?, text?, h]
  split
  · rename_i hlt
    simp only [Option.filter_some, hlt, decide_true, if_true, Option.map_some, Option.bind_some,
      Json.read?_compact_ofWord]
    rfl
  · rename_i hle
    simp only [Option.filter_some, hle, decide_false, Bool.false_eq_true, if_false, Option.map_none, Option.bind_none]

theorem get?_keepWord (c : Cache) (timer : Nat) (key : String) (n : UInt64) (ttl : Nat) :
    (c.keepWord timer key n ttl).get? key = some ⟨(Json.ofWord n).compact, timer + ttl⟩ := Keyed.get?_set_self ..

end Cache

namespace Pass

variable {σ : Type} {a : Assignment} {clock : Clock} {cancelled : Bool}

def isSearching : Pass → Bool
  | .tip .. => true
  | _ => false

/-- How a step of a pass bears on the searches and on the cache. -/
inductive Searched (a : Assignment) (clock : Clock) (s s' : Shared σ) : Pass → Pass → Prop
  | begun {p' : Pass} (hp' : p'.isSearching = true) (hmiss : s.cache.word? clock.timer (tipKey a) = none)
      (hcache : s'.cache = s.cache) : Searched a clock s s' .opening p'
  | ended {config : Plan.BatchConfig} {call : PacedCall UInt64} {r : Except RpcError UInt64} {p' : Pass}
      (hr : call.result? = some r) (hcache : s'.cache = r.toOption.elim s.cache fun latest =>
        s.cache.keepWord clock.timer (tipKey a) latest a.setup.chain.cacheTtl) :
      Searched a clock s s' (.tip config call) p'
  | quiet {p p' : Pass} (hopening : p = .opening → p'.isSearching = false)
      (hsearching : ∀ config call, p = .tip config call → call.result? = none) (hcache : s'.cache = s.cache) :
      Searched a clock s s' p p'

theorem searched_opened (s : Shared σ) :
    Searched a clock s ((opened (σ := σ) a clock).run s).2 .opening ((opened (σ := σ) a clock).run s).1 := by
  unfold opened
  split
  · exact .quiet (fun _ => rfl) nofun rfl
  · split
    · exact .quiet (fun _ => rfl) nofun rfl
    · simp only [StateT.run_bind, StateT.run_get, pure_bind]
      cases hw : s.cache.word? clock.timer (tipKey a) with
      | none => exact .begun rfl hw rfl
      | some latest => exact .quiet (fun _ => rfl) nofun rfl

theorem searched_step [LockService σ] {p : Pass} (s : Shared σ) {act : Act σ Pass}
    (h : p.step a clock cancelled = some act) : Searched a clock s (act.run s).2 p (act.run s).1 := by
  cases p with
  | opening =>
      cases h
      exact searched_opened s
  | tip config call =>
      simp only [step] at h
      split at h
      · rename_i r hr
        cases h
        cases r with
        | error e => exact .ended hr rfl
        | ok latest => exact .ended hr rfl
      · rename_i hnone
        split at h
        · cases h
          refine .quiet (fun heq => ?_) (fun config' call' heq => ?_) rfl
          · cases heq
          · cases heq
            exact hnone
        · cases h
  | fetching f =>
      refine .quiet (fun heq => ?_) (fun config call heq => ?_) ?_
      · cases heq
      · cases heq
      · cases fetchStep_of_step h <;> rfl
  | finished result => cases h

end Pass

namespace Feed

variable {σ : Type} {s : Feed σ}

/-! ## Searches of a run -/

/-- What happens to the search of a pass. Whatever number it ends with is in the cache then. -/
inductive Search where
  | begun (place timer : Nat)
  | ended (place timer : Nat) (result : Except RpcError UInt64)
  deriving DecidableEq

def Search.timer : Search → Nat
  | .begun _ timer => timer
  | .ended _ timer _ => timer

variable [LockService σ]

/-- A step begins the search of a pass when the pass finds nothing in the cache, and ends it with the call's result. -/
def search? (s : Feed σ) : Move → Option Search
  | .step place clock cancelled =>
    match s.passes[place]? with
    | some (_, .opening) =>
      if (s.stepPass place clock cancelled).passes[place]?.any (·.2.isSearching) then some (.begun place clock.timer)
      else none
    | some (_, .tip _ call) => call.result?.map (.ended place clock.timer ·)
    | _ => none
  | _ => none

def searches (limits : GroupLimits) (s : Feed σ) : List Move → List Search
  | [] => []
  | m :: moves => (s.search? m).toList ++ (s.move limits m).searches limits moves

/-- The earlier one of two events; where it ends a search with a number and the later one begins a search, the number
has expired in between. -/
def Search.Before (ttl : Nat) (x y : Search) : Prop :=
  x.timer ≤ y.timer ∧ ∀ i u latest j t, x = .ended i u (.ok latest) → y = .begun j t → u + ttl ≤ t

/-- The passes are of one chain, and a number that a search ended with is in the cache, or a newer one, until it
expires. -/
structure Keeping (setup : Setup) (timer : Nat) (past : List Search) (s : Feed σ) : Prop where
  passes : ∀ ap ∈ s.passes, ap.1.setup = setup
  elapsed : ∀ x ∈ past, x.timer ≤ timer
  cached : ∀ i u latest, .ended i u (.ok latest) ∈ past → ∀ a : Assignment, a.setup = setup → ∃ n expires,
    s.shared.cache.get? (Pass.tipKey a) = some ⟨(Json.ofWord n).compact, expires⟩ ∧ u + setup.chain.cacheTtl ≤ expires
  ordered : past.Pairwise (Search.Before setup.chain.cacheTtl)

section Keeping

omit [LockService σ]

variable {setup : Setup} {timer timer' : Nat} {past : List Search} {s' : Feed σ} {a : Assignment} {place : Nat}

theorem Keeping.quiet (h : Keeping setup timer past s) (htimer : timer ≤ timer')
    (hpasses : ∀ ap ∈ s'.passes, ap.1.setup = setup) (hcache : s'.shared.cache = s.shared.cache) :
    Keeping setup timer' past s' :=
  ⟨hpasses, fun x hx => (h.elapsed x hx).trans htimer, hcache ▸ h.cached, h.ordered⟩

/-- Nothing is found in the cache only after all that was kept has expired. -/
theorem Keeping.begun (h : Keeping setup timer past s) (htimer : timer ≤ timer') (ha : a.setup = setup)
    (hmiss : s.shared.cache.word? timer' (Pass.tipKey a) = none) (hpasses : ∀ ap ∈ s'.passes, ap.1.setup = setup)
    (hcache : s'.shared.cache = s.shared.cache) : Keeping setup timer' (past ++ [.begun place timer']) s' where
  passes := hpasses
  elapsed x hx := by
    rcases List.mem_append.1 hx with hx | hx
    · exact (h.elapsed x hx).trans htimer
    · exact (congrArg Search.timer (List.mem_singleton.1 hx)).le
  cached i u latest hx := by
    rw [hcache]
    exact h.cached i u latest (by simpa using hx)
  ordered := by
    refine List.pairwise_append.2 ⟨h.ordered, List.pairwise_singleton _ _, fun x hx y hy => ?_⟩
    cases List.mem_singleton.1 hy
    refine ⟨(h.elapsed x hx).trans htimer, fun i u latest j t hended hbegun => ?_⟩
    cases hbegun
    -- what that search ended with would have been found
    obtain ⟨n, expires, hget, hle⟩ := h.cached i u latest (hended ▸ hx) a ha
    rw [Cache.word?_of_get? hget] at hmiss
    split at hmiss
    · cases hmiss
    · omega

/-- What a search ends with is kept, and stays as long as anything before it. -/
theorem Keeping.ended (h : Keeping setup timer past s) (htimer : timer ≤ timer') (ha : a.setup = setup)
    {r : Except RpcError UInt64} (hpasses : ∀ ap ∈ s'.passes, ap.1.setup = setup)
    (hcache : s'.shared.cache = r.toOption.elim s.shared.cache fun latest =>
      s.shared.cache.keepWord timer' (Pass.tipKey a) latest a.setup.chain.cacheTtl) :
    Keeping setup timer' (past ++ [.ended place timer' r]) s' where
  passes := hpasses
  elapsed x hx := by
    rcases List.mem_append.1 hx with hx | hx
    · exact (h.elapsed x hx).trans htimer
    · exact (congrArg Search.timer (List.mem_singleton.1 hx)).le
  cached i u latest hx b hb := by
    have hkey : Pass.tipKey b = Pass.tipKey a := by rw [Pass.tipKey, Pass.tipKey, hb, ha]
    cases r with
    | error e =>
        rw [hcache]
        exact h.cached i u latest (by simpa using hx) b hb
    | ok newest =>
        -- the new entry takes the place of the old one, and expires no sooner
        have hu : u ≤ timer' := by
          rcases List.mem_append.1 hx with hx | hx
          · exact (h.elapsed _ hx).trans htimer
          · exact (congrArg Search.timer (List.mem_singleton.1 hx)).le
        refine ⟨newest, timer' + setup.chain.cacheTtl, ?_, by omega⟩
        rw [hcache, hkey, ← ha]
        exact Cache.get?_keepWord ..
  ordered := by
    refine List.pairwise_append.2 ⟨h.ordered, List.pairwise_singleton _ _, fun x hx y hy => ?_⟩
    cases List.mem_singleton.1 hy
    exact ⟨(h.elapsed x hx).trans htimer, nofun⟩

theorem Keeping.passes_set (h : Keeping setup timer past s) {p : Pass} (hp : s.passes[place]? = some (a, p)) (p' : Pass) :
    ∀ ap ∈ s.passes.set place (a, p'), ap.1.setup = setup := by
  intro ap hap
  rcases List.mem_or_eq_of_mem_set hap with hap | rfl
  · exact h.passes ap hap
  · exact h.passes (a, p) (List.mem_of_getElem? hp)

end Keeping

/-! ## Moves -/

variable {setup : Setup} {timer : Nat} {past : List Search}

theorem Keeping.stepPass (h : Keeping setup timer past s) (place : Nat) {clock : Clock} (cancelled : Bool)
    (htimer : timer ≤ clock.timer) :
    Keeping setup clock.timer (past ++ (s.search? (.step place clock cancelled)).toList)
      (s.stepPass place clock cancelled) := by
  have hsame : Keeping setup clock.timer past s := h.quiet htimer h.passes rfl
  cases hp : s.passes[place]? with
  | none => simpa [search?, Feed.stepPass, hp] using hsame
  | some ap =>
      obtain ⟨a, p⟩ := ap
      have ha : a.setup = setup := h.passes (a, p) (List.mem_of_getElem? hp)
      cases hact : p.step (σ := σ) a clock cancelled with
      | none =>
          have hnone : s.search? (.step place clock cancelled) = none := by
            cases p with
            | opening => cases hact
            | tip config call =>
                simp only [Pass.step] at hact
                split at hact
                · cases hact
                · rename_i hresult
                  simp [search?, hp, hresult]
            | fetching f => simp [search?, hp]
            | finished result => simp [search?, hp]
          simpa [hnone, Feed.stepPass, hp, hact] using hsame
      | some act =>
          have hsearched := Pass.searched_step s.shared hact
          have hmoved : s.stepPass place clock cancelled = { s with
              shared := (act.run s.shared).2
              passes := s.passes.set place (a, (act.run s.shared).1)
              delivered := s.delivered ++ p.delivery?.toList } := by
            simp only [Feed.stepPass, hp, hact]
          have hpasses : ∀ ap ∈ (s.stepPass place clock cancelled).passes, ap.1.setup = setup := by
            rw [hmoved]
            exact h.passes_set hp (act.run s.shared).1
          have hat : (s.stepPass place clock cancelled).passes[place]? = some (a, (act.run s.shared).1) := by
            rw [hmoved]
            exact List.getElem?_set_self (List.getElem?_eq_some_iff.1 hp).1
          have hshared : (s.stepPass place clock cancelled).shared = (act.run s.shared).2 := by rw [hmoved]
          rw [← hshared] at hsearched
          cases hsearched with
          | begun hp' hmiss hcache =>
              have hsearch : s.search? (.step place clock cancelled) = some (.begun place clock.timer) := by
                simp [search?, hp, hat, hp']
              rw [hsearch]
              exact h.begun htimer ha hmiss hpasses hcache
          | @ended config call r p' hr hcache =>
              have hsearch : s.search? (.step place clock cancelled) = some (.ended place clock.timer r) := by
                simp [search?, hp, hr]
              rw [hsearch]
              exact h.ended htimer ha hpasses hcache
          | quiet hopening hsearching hcache =>
              have hsearch : s.search? (.step place clock cancelled) = none := by
                cases p with
                | opening => simp [search?, hp, hat, hopening rfl]
                | tip config call => simp [search?, hp, hsearching config call rfl]
                | fetching f => simp [search?, hp]
                | finished result => simp [search?, hp]
              rw [hsearch, Option.toList_none, List.append_nil]
              exact h.quiet htimer hpasses hcache

/-- When a move happens, if that matters to it. -/
def Move.timer? : Move → Option Nat
  | .begin _ => none
  | .step _ clock _ | .answerTip _ clock _ | .answerFetch _ clock _ _ | .receive _ clock | .deadline clock =>
    some clock.timer

/-- A pass that a move begins is of this setup. -/
def Move.Of (setup : Setup) : Move → Prop
  | .begin a => a.setup = setup
  | _ => True

theorem Keeping.move (h : Keeping setup timer past s) (limits : GroupLimits) {m : Move} (hm : m.Of setup)
    (htimer : ∀ t ∈ m.timer?, timer ≤ t) :
    Keeping setup (m.timer?.getD timer) (past ++ (s.search? m).toList) (s.move limits m) := by
  have hquiet : s.search? m = none → Keeping setup (m.timer?.getD timer) past (s.move limits m) →
      Keeping setup (m.timer?.getD timer) (past ++ (s.search? m).toList) (s.move limits m) := by
    intro hnone hmoved
    rwa [hnone, Option.toList_none, List.append_nil]
  cases m with
  | step place clock cancelled => exact h.stepPass place cancelled (htimer _ rfl)
  | begin a =>
      refine hquiet rfl (h.quiet le_rfl (fun ap hap => ?_) rfl)
      rcases List.mem_append.1 hap with hap | hap
      · exact h.passes ap hap
      · cases List.mem_singleton.1 hap
        exact hm
  | answerTip place clock answer =>
      refine hquiet rfl ?_
      rw [Feed.move, Feed.answerTip]
      split
      · exact h.quiet (htimer _ rfl) h.passes rfl
      · rename_i a p hp
        refine h.quiet (htimer _ rfl) (h.passes_set hp _) ?_
        cases p <;> rfl
  | answerFetch place clock batch answer =>
      refine hquiet rfl ?_
      rw [Feed.move, Feed.answerFetch]
      split
      · exact h.quiet (htimer _ rfl) h.passes rfl
      · rename_i a p hp
        refine h.quiet (htimer _ rfl) (h.passes_set hp _) ?_
        cases p with
        | fetching f =>
            simp only [Pass.answerFetch]
            split <;> rfl
        | _ => rfl
  | receive place clock =>
      refine hquiet rfl ?_
      rw [Feed.move, Feed.receive]
      split <;> exact h.quiet (htimer _ rfl) h.passes rfl
  | deadline clock => exact hquiet rfl (h.quiet (htimer _ rfl) h.passes rfl)

theorem Keeping.run (h : Keeping setup timer past s) (limits : GroupLimits) {moves : List Move}
    (hm : ∀ m ∈ moves, m.Of setup)
    (htimers : (timer :: moves.filterMap Move.timer?).Pairwise (· ≤ ·)) :
    ∃ timer, Keeping setup timer (past ++ s.searches limits moves) (s.run limits moves) := by
  induction moves generalizing s timer past with
  | nil =>
      rw [searches, List.append_nil]
      exact ⟨timer, h⟩
  | cons m moves ih =>
      obtain ⟨hfirst, hrest⟩ := List.forall_mem_cons.1 hm
      rw [searches, ← List.append_assoc]
      cases htimer : m.timer? with
      | none =>
          have hmoved := h.move limits hfirst (by simp [htimer])
          rw [htimer, Option.getD_none] at hmoved
          rw [List.filterMap_cons_none htimer] at htimers
          exact ih hmoved hrest htimers
      | some t =>
          rw [List.filterMap_cons_some htimer, List.pairwise_cons] at htimers
          have hmoved := h.move limits hfirst (by simpa [htimer] using htimers.1 t List.mem_cons_self)
          rw [htimer, Option.getD_some] at hmoved
          exact ih hmoved hrest htimers.2

/-! ## Searches within the time to live -/

/-- When the passes are of one chain and the timer does not go back, no search begins before a number that an earlier
one ended with has expired. So if two searches begin within the time to live of the cache, no search ends with a
number in between: where the first one ends with a number, the second one began while it was under way. -/
theorem no_search_before_expiry (limits : GroupLimits) (shared : Shared σ) {moves : List Move}
    (hm : ∀ m ∈ moves, m.Of setup) (htimers : (moves.filterMap Move.timer?).Pairwise (· ≤ ·)) :
    (∀ before after, (start shared).searches limits moves = before ++ after → ∀ i u latest j t,
      .ended i u (.ok latest) ∈ before → .begun j t ∈ after → u + setup.chain.cacheTtl ≤ t) ∧
    ∀ before between after i t j t', (start shared).searches limits moves =
        before ++ .begun i t :: (between ++ .begun j t' :: after) → t' < t + setup.chain.cacheTtl →
      ∀ k u latest, .ended k u (.ok latest) ∉ between := by
  have hstart : Keeping setup 0 [] (start shared) := by constructor <;> simp [start]
  obtain ⟨timer, hrun⟩ := hstart.run limits hm (List.pairwise_cons.2 ⟨fun _ _ => Nat.zero_le _, htimers⟩)
  have hordered := hrun.ordered
  rw [List.nil_append] at hordered
  refine ⟨fun before after hsearches i u latest j t hended hbegun => ?_,
    fun before between after i t j t' hsearches hlt k u latest hended => ?_⟩
  · rw [hsearches] at hordered
    exact ((List.pairwise_append.1 hordered).2.2 _ hended _ hbegun).2 i u latest j t rfl rfl
  · rw [hsearches] at hordered
    obtain ⟨hfirst, hrest⟩ := List.pairwise_cons.1 (List.pairwise_append.1 hordered).2.1
    have htimer := (hfirst _ (List.mem_append_left _ hended)).1
    have hexpired := ((List.pairwise_append.1 hrest).2.2 _ hended _ List.mem_cons_self).2 k u latest j t' rfl rfl
    change t ≤ u at htimer
    omega

def tenSeconds : Assignment :=
  { youngPoolAssignment with setup := { youngPoolAssignment.setup with chain := ⟨"chain", 12000, ofSeconds 10⟩ } }

/-- One pass is told the newest block, and another one begins when that has expired. -/
def expiryMoves : List Move :=
  let clock : Clock := ⟨Timestamp.epoch, 0⟩
  let later : Clock := ⟨Timestamp.epoch, ofSeconds 11⟩
  let soon : Clock := ⟨Timestamp.epoch, ofSeconds 1⟩
  [.begin tenSeconds, .step 0 clock false, .step 0 clock false, .answerTip 0 soon (.ok 6), .step 0 soon false,
    .begin tenSeconds, .step 1 later false]

theorem no_search_before_expiry_tenSeconds :
    (start youngPoolShared).searches ⟨100, 1000⟩ expiryMoves =
      [.begun 0 0, .ended 0 (ofSeconds 1) (.ok 6), .begun 1 (ofSeconds 11)] ∧
    ofSeconds 1 + tenSeconds.setup.chain.cacheTtl ≤ ofSeconds 11 := by
  have hsearches : (start youngPoolShared).searches ⟨100, 1000⟩ expiryMoves =
      [.begun 0 0, .ended 0 (ofSeconds 1) (.ok 6), .begun 1 (ofSeconds 11)] := by decide +kernel
  have hm : ∀ m ∈ expiryMoves, m.Of tenSeconds.setup := by simp [expiryMoves, Move.Of]
  have h := no_search_before_expiry ⟨100, 1000⟩ youngPoolShared hm (by decide)
  exact ⟨hsearches, h.1 [.begun 0 0, .ended 0 (ofSeconds 1) (.ok 6)] [.begun 1 (ofSeconds 11)] hsearches 0 _ 6 1 _
    (by simp) (by simp)⟩

/-- Two passes look into the empty cache before either of them is told the newest block. -/
def besideMoves : List Move :=
  let clock : Clock := ⟨Timestamp.epoch, 0⟩
  let soon : Clock := ⟨Timestamp.epoch, ofSeconds 1⟩
  [.begin tenSeconds, .begin tenSeconds, .step 0 clock false, .step 1 clock false, .step 0 clock false,
    .step 1 clock false, .answerTip 0 soon (.ok 6), .step 0 soon false, .answerTip 1 soon (.ok 7), .step 1 soon false]

/-- Two searches begin and end with a number, all within a tenth of the time to live. -/
theorem two_searches_within_ttl :
    (start youngPoolShared).searches ⟨100, 1000⟩ besideMoves =
      [.begun 0 0, .begun 1 0, .ended 0 (ofSeconds 1) (.ok 6), .ended 1 (ofSeconds 1) (.ok 7)] ∧
    10 * ofSeconds 1 ≤ tenSeconds.setup.chain.cacheTtl :=
  ⟨by decide +kernel, by decide⟩

end Feed

end Backfill
