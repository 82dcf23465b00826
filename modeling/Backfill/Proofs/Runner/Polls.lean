import Backfill.Proofs.Runner
import Backfill.Proofs.Runner.Steps

/-!
# What the polls gave a worker

A worker holds the share that some poll gave its provider. It is left to go on as long as the polls after that one
give the provider the same keys, whatever else they say about the entities.
-/

namespace Backfill

/-- An answer of the source of entities, the flagged keys at that time, and the shares that were handed out. -/
structure Poll where
  needed : List String
  entities : List Entity
  shares : List (Nat × List Entity)

namespace Poll

def share (p : Poll) (place : Nat) : List Entity := (p.shares.lookup place).getD []

def keys (p : Poll) (place : Nat) : List String := (p.share place).map (·.importKey)

/-- The shares are those of the poll's entities. -/
def Fair (sharing : Sharing) (endpoints : List Endpoint) (p : Poll) : Prop :=
  sharing.SharesOut endpoints p.needed p.entities p.shares

variable {sharing : Sharing} {endpoints : List Endpoint} {p : Poll}

theorem Fair.length (h : p.Fair sharing endpoints) : p.shares.length = endpoints.length := by
  rw [← List.length_map (·.1), h.places, List.length_range]

/-- The shares that are left when some places are served begin with that of the next place. -/
theorem Fair.next (h : p.Fair sharing endpoints) {served place : Nat} {share : List Entity}
    {rest : List (Nat × List Entity)} (hdrop : p.shares.drop served = (place, share) :: rest) :
    place = served ∧ place < endpoints.length ∧ p.share place = share ∧ p.shares.drop (served + 1) = rest := by
  have hget : p.shares[served]? = some (place, share) := by
    rw [← List.head?_drop, hdrop, List.head?_cons]
  have hplaces : (List.range endpoints.length)[served]? = some place := by
    rw [← h.places, List.getElem?_map, hget, Option.map_some]
  obtain ⟨hlt, hplace⟩ := List.getElem?_eq_some_iff.1 hplaces
  rw [List.getElem_range] at hplace
  rw [List.length_range] at hlt
  subst hplace
  refine ⟨rfl, hlt, ?_, ?_⟩
  · have hlookup : p.shares.lookup served = some share := by
      refine List.lookup_eq_some_iff.2 ⟨p.shares.take served, rest, ?_, fun q hq => ?_⟩
      · rw [← hdrop, List.take_append_drop]
      · have hmem : q.1 ∈ (List.range endpoints.length).take served := by
          rw [← h.places, ← List.map_take]
          exact List.mem_map_of_mem hq
        rw [List.take_range, List.mem_range] at hmem
        rw [bne_iff_ne]
        omega
    rw [Poll.share, hlookup, Option.getD_some]
  · rw [← List.drop_drop, hdrop, List.drop_one, List.tail_cons]

theorem Fair.place_unique (h : p.Fair sharing endpoints) {place other : Nat} {key : String}
    (hkey : key ∈ p.keys place) (hother : key ∈ p.keys other) : place = other := by
  have hdistinct := h.distinct
  rw [List.map_flatMap, List.nodup_flatMap] at hdistinct
  obtain ⟨e, he, hekey⟩ := List.mem_map.1 hkey
  obtain ⟨e', he', hekey'⟩ := List.mem_map.1 hother
  obtain ⟨share, hshare, hmem⟩ := Sharing.mem_of_lookup he
  obtain ⟨share', hshare', hmem'⟩ := Sharing.mem_of_lookup he'
  by_contra hne
  have : Std.Symm (Function.onFun List.Disjoint fun p : Nat × List Entity => p.2.map (·.importKey)) :=
    ⟨fun _ _ => List.Disjoint.symm⟩
  have hdisjoint := hdistinct.2.forall hshare hshare' fun heq => hne (congrArg Prod.fst heq)
  exact hdisjoint (List.mem_map.2 ⟨e, hmem, hekey⟩) (List.mem_map.2 ⟨e', hmem', hekey'⟩)

theorem Fair.mem_entities (h : p.Fair sharing endpoints) {place : Nat} {e : Entity} (he : e ∈ p.share place) :
    e ∈ p.entities := by
  obtain ⟨share, hshare, he⟩ := Sharing.mem_of_lookup he
  exact h.polled e (List.mem_flatMap.2 ⟨_, hshare, he⟩)

end Poll

/-! ## Assignments in force -/

namespace Assignment

/-- The assignment is what one of the polls gave the place, the oldest poll standing first, and every later poll gave
it the same keys. -/
def InForce (polls : List Poll) (place : Nat) (a : Assignment) : Prop :=
  ∃ before poll after, polls = before ++ poll :: after ∧ a.entities = poll.share place ∧ a.entities ≠ [] ∧
    ∀ later ∈ after, later.keys place = a.entities.map (·.importKey)

variable {older : List Poll} {newest : Poll} {place : Nat} {a : Assignment}

theorem inForce_given (h : a.entities = newest.share place) (hne : a.entities ≠ []) :
    InForce (older ++ [newest]) place a := ⟨older, newest, [], rfl, h, hne, nofun⟩

theorem InForce.kept (h : InForce older place a) (hkeys : newest.keys place = a.entities.map (·.importKey)) :
    InForce (older ++ [newest]) place a := by
  obtain ⟨before, poll, after, rfl, hshare, hne, hafter⟩ := h
  refine ⟨before, poll, after ++ [newest], by simp, hshare, hne, fun later hlater => ?_⟩
  rcases List.mem_append.1 hlater with hlater | hlater
  · exact hafter later hlater
  · exact List.mem_singleton.1 hlater ▸ hkeys

/-- The newest poll gave the assignment or left it in force. -/
theorem InForce.given_or_kept (h : InForce (older ++ [newest]) place a) :
    (a.entities = newest.share place ∧ a.entities ≠ []) ∨
      (InForce older place a ∧ newest.keys place = a.entities.map (·.importKey)) := by
  obtain ⟨before, poll, after, hpolls, hshare, hne, hafter⟩ := h
  rcases List.eq_nil_or_concat' after with rfl | ⟨between, last, rfl⟩
  · obtain ⟨-, hnewest⟩ := List.append_inj' hpolls rfl
    cases hnewest
    exact Or.inl ⟨hshare, hne⟩
  · rw [← List.cons_append, ← List.append_assoc] at hpolls
    obtain ⟨rfl, hnewest⟩ := List.append_inj' hpolls rfl
    cases hnewest
    refine Or.inr ⟨⟨before, poll, between, rfl, hshare, hne, fun later hlater => ?_⟩, ?_⟩
    · exact hafter later (List.mem_append_left _ hlater)
    · exact hafter newest (List.mem_append_right _ (List.mem_singleton_self _))

theorem InForce.keys (h : InForce (older ++ [newest]) place a) :
    newest.keys place = a.entities.map (·.importKey) := by
  rcases h.given_or_kept with ⟨hshare, -⟩ | ⟨-, hkeys⟩
  · rw [Poll.keys, hshare]
  · exact hkeys

theorem InForce.share_ne_nil (h : InForce (older ++ [newest]) place a) : newest.share place ≠ [] := by
  intro hnil
  have hkeys := h.keys
  obtain ⟨before, poll, after, -, -, hne, -⟩ := h
  rw [Poll.keys, hnil, List.map_nil] at hkeys
  exact hne (List.map_eq_nil_iff.1 hkeys.symm)

/-- The entities are those of the newest poll if the polls before it said the same about them. -/
theorem InForce.entities_eq (h : InForce (older ++ [newest]) place a)
    (hsame : ∀ poll ∈ older, ∀ e ∈ poll.share place, ∀ e' ∈ newest.share place,
      e.importKey = e'.importKey → e = e') : a.entities = newest.share place := by
  rcases h.given_or_kept with ⟨hshare, -⟩ | ⟨⟨before, poll, after, rfl, hshare, -, -⟩, hkeys⟩
  · exact hshare
  have hpoll := hsame poll (List.mem_append_right before List.mem_cons_self)
  rw [hshare] at hkeys ⊢
  have hlength : (poll.share place).length = (newest.share place).length := by
    have := congrArg List.length hkeys
    rw [Poll.keys, List.length_map, List.length_map] at this
    exact this.symm
  -- entities of one key are the same one, place by place
  refine List.ext_getElem hlength fun i hi hi' => ?_
  refine hpoll _ (List.getElem_mem hi) _ (List.getElem_mem hi') ?_
  have hkey := List.getElem_of_eq hkeys (by simpa [Poll.keys] using hi')
  simpa [Poll.keys] using hkey.symm

end Assignment

end Backfill
