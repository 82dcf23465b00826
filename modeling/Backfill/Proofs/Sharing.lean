import Backfill.Runner
import Backfill.Proofs.Axis
import Backfill.Proofs.Weights
import Mathlib.Data.String.Basic

/-!
# Every entity has one provider

The shares of a poll hold each key of the polled list once, whatever the order of the list and however often
a key comes in it. With providers of the full history among them, the entities that need it are in the shares
of these. Both parts of a share are in the order of the keys, since a split cuts a list into runs.
-/

namespace Backfill

namespace Sharing

/-! ## Distinct keys -/

section Canonical

variable {entities : List Entity}

theorem sublist_dedup (entities : List Entity) : (canonical.dedup entities).Sublist entities := by
  induction entities using canonical.dedup.induct with
  | case1 a b rest heq ih =>
      rw [canonical.dedup, if_pos heq]
      exact ih.trans ((List.sublist_cons_self b rest).cons_cons a)
  | case2 a b rest hne ih =>
      rw [canonical.dedup, if_neg hne]
      exact ih.cons_cons a
  | case3 short hshort => rw [canonical.dedup.eq_2 short hshort]

theorem mem_keys_dedup {key : String} :
    key ∈ (canonical.dedup entities).map (·.importKey) ↔ key ∈ entities.map (·.importKey) := by
  induction entities using canonical.dedup.induct with
  | case1 a b rest heq ih =>
      rw [canonical.dedup, if_pos heq, ih]
      simp [heq]
  | case2 a b rest hne ih =>
      rw [canonical.dedup, if_neg hne, List.map_cons, List.mem_cons, ih, ← List.mem_cons, ← List.map_cons]
  | case3 short hshort => rw [canonical.dedup.eq_2 short hshort]

theorem ascending_dedup_keys (h : entities.Pairwise fun a b => a.importKey ≤ b.importKey) :
    (canonical.dedup entities).Pairwise fun a b => a.importKey < b.importKey := by
  induction entities using canonical.dedup.induct with
  | case1 a b rest heq ih =>
      rw [canonical.dedup, if_pos heq]
      exact ih (h.sublist ((List.sublist_cons_self b rest).cons_cons a))
  | case2 a b rest hne ih =>
      obtain ⟨ha, h⟩ := List.pairwise_cons.1 h
      rw [canonical.dedup, if_neg hne, List.pairwise_cons]
      refine ⟨?_, ih h⟩
      intro e he
      have hab : a.importKey < b.importKey := lt_of_le_of_ne (ha b List.mem_cons_self) hne
      rcases List.mem_cons.1 ((sublist_dedup (b :: rest)).mem he) with rfl | he
      · exact hab
      · exact lt_of_lt_of_le hab ((List.pairwise_cons.1 h).1 e he)
  | case3 short hshort =>
      rw [canonical.dedup.eq_2 short hshort]
      match short, hshort with
      | [], _ => exact .nil
      | [a], _ => exact List.pairwise_singleton _ a
      | a :: b :: rest, hshort => exact absurd rfl (hshort a b rest)

theorem ascending_canonical (entities : List Entity) :
    (canonical entities).Pairwise fun a b => a.importKey < b.importKey := by
  apply ascending_dedup_keys
  exact ascending_mergeSort (fun _ _ _ => le_trans) le_total Entity.importKey entities

/-- Entities in the order of their keys stay as they are. -/
theorem canonical_eq_self (h : entities.Pairwise fun a b => a.importKey < b.importKey) :
    canonical entities = entities := by
  rw [canonical, List.mergeSort_of_pairwise (h.imp fun hab => decide_eq_true (le_of_lt hab))]
  induction entities using canonical.dedup.induct with
  | case1 a b rest heq _ => exact absurd heq (ne_of_lt ((List.pairwise_cons.1 h).1 b List.mem_cons_self))
  | case2 a b rest hne ih => rw [canonical.dedup, if_neg hne, ih (List.pairwise_cons.1 h).2]
  | case3 short hshort => rw [canonical.dedup.eq_2 short hshort]

theorem mem_of_mem_canonical {e : Entity} (h : e ∈ canonical entities) : e ∈ entities :=
  List.mem_mergeSort.1 ((sublist_dedup _).mem h)

theorem mem_keys_canonical {key : String} :
    key ∈ (canonical entities).map (·.importKey) ↔ key ∈ entities.map (·.importKey) := by
  rw [canonical, mem_keys_dedup]
  exact ((List.mergeSort_perm _ _).map _).mem_iff

end Canonical

/-! ## Branches of the providers -/

/-- The weights of providers that stand at places. -/
def weigh (placed : List (Endpoint × Nat)) : List (Nat × UInt64) :=
  placed.map fun (e, place) => (place, e.limitations.providerWeight)

theorem map_weigh_fst (placed : List (Endpoint × Nat)) : (weigh placed).map (·.1) = placed.map (·.2) := by
  rw [weigh, List.map_map]
  rfl

/-- The providers of the full history with their places. -/
def archivers (endpoints : List Endpoint) : List (Endpoint × Nat) :=
  endpoints.zipIdx.filter (·.1.limitations.archive)

/-- All the providers have a branch in their order, and those of the full history have one among them. -/
structure Fits (s : Sharing) (endpoints : List Endpoint) : Prop where
  ne_nil : s.all.branches ≠ []
  places : s.all.branches.map (·.1) = List.range endpoints.length
  none_archives : s.archive = none → archivers endpoints = []
  archive_ne_nil : ∀ b, s.archive = some b → b.branches ≠ []
  archive_places : ∀ b, s.archive = some b → b.branches.map (·.1) = (archivers endpoints).map (·.2)

variable {endpoints : List Endpoint} {s : Sharing}

theorem places_of_ofWeights {all : Branches Nat} (h : Branches.ofWeights (weigh endpoints.zipIdx) = .ok all) :
    all.branches.map (·.1) = List.range endpoints.length ∧ all.branches ≠ [] := by
  obtain ⟨hkeys, hne⟩ := Branches.keys_of_ofWeights h
  rw [map_weigh_fst, List.zipIdx_map_snd] at hkeys
  exact ⟨hkeys.trans List.range_eq_range'.symm, hne⟩

theorem ofEndpoints_eq (endpoints : List Endpoint) : ofEndpoints endpoints = (do
    let all ← Branches.ofWeights (weigh endpoints.zipIdx)
    if (weigh (archivers endpoints)).isEmpty then return ⟨all, none⟩
    return ⟨all, some (← Branches.ofWeights (weigh (archivers endpoints)))⟩) := rfl

/-- When all the providers' weights are valid, so are those of the providers of the full history. -/
theorem exists_ofEndpoints {all : Branches Nat} (h : Branches.ofWeights (weigh endpoints.zipIdx) = .ok all) :
    ∃ s, ofEndpoints endpoints = .ok s ∧ s.Fits endpoints := by
  obtain ⟨hplaces, hne⟩ := places_of_ofWeights h
  have hsub : (weigh (archivers endpoints)).Sublist (weigh endpoints.zipIdx) := List.filter_sublist.map _
  rw [ofEndpoints_eq, h]
  by_cases hempty : weigh (archivers endpoints) = []
  · refine ⟨⟨all, none⟩, by simp [hempty, bind, Except.bind, pure, Except.pure], hne, hplaces, ?_, nofun, nofun⟩
    intro _
    exact List.map_eq_nil_iff.1 hempty
  · obtain ⟨archive, harchive⟩ := Branches.exists_ofWeights_of_sublist h hsub hempty
    obtain ⟨hkeys, harchivene⟩ := Branches.keys_of_ofWeights harchive
    refine ⟨⟨all, some archive⟩, ?_, hne, hplaces, nofun, ?_, ?_⟩
    · simp [hempty, harchive, bind, Except.bind, pure, Except.pure]
    · rintro b ⟨⟩
      exact harchivene
    · rintro b ⟨⟩
      rw [hkeys, map_weigh_fst]

theorem fits_of_ofEndpoints (h : ofEndpoints endpoints = .ok s) : s.Fits endpoints := by
  cases hall : Branches.ofWeights (weigh endpoints.zipIdx) with
  | error e =>
      rw [ofEndpoints_eq, hall] at h
      cases h
  | ok all =>
      obtain ⟨s', hs', hfits⟩ := exists_ofEndpoints hall
      cases hs'.symm.trans h
      exact hfits

/-! ## Shares -/

section Shares

variable {needed : List String} {entities : List Entity}

/-- Whether the entity is for providers of the full history. -/
def binds (s : Sharing) (needed : List String) (e : Entity) : Bool := s.archive.isSome && needed.contains e.importKey

/-- What the providers of the full history get beside their shares. -/
def extra (archive : Branches Nat) (needed : List String) (entities : List Entity) : List (Nat × List Entity) :=
  archive.split (entities.filter fun e => needed.contains e.importKey)

theorem shares_of_none (h : s.archive = none) : s.shares needed entities = s.all.split entities := by
  rw [shares, h]

theorem shares_of_some {archive : Branches Nat} (h : s.archive = some archive) : s.shares needed entities =
    (s.all.split (entities.filter fun e => !needed.contains e.importKey)).map fun (place, share) =>
      (place, share ++ ((extra archive needed entities).lookup place).getD []) := by
  rw [shares, h]
  simp only [List.partition_eq_filter_filter]
  rfl

theorem binds_of_none (h : s.archive = none) (e : Entity) : s.binds needed e = false := by
  rw [binds, h]
  rfl

theorem binds_of_some {archive : Branches Nat} (h : s.archive = some archive) (e : Entity) :
    s.binds needed e = needed.contains e.importKey := by
  rw [binds, h]
  rfl

theorem mem_of_mem_split {b : Branches Nat} (hne : b.branches ≠ []) {items : List Entity} {p : Nat × List Entity}
    (hp : p ∈ b.split items) {e : Entity} (he : e ∈ p.2) : e ∈ items := by
  rw [← Branches.flatMap_split hne items]
  exact List.mem_flatMap.2 ⟨p, hp, he⟩

theorem mem_of_lookup {xs : List (Nat × List Entity)} {place : Nat} {e : Entity}
    (h : e ∈ (xs.lookup place).getD []) : ∃ share, (place, share) ∈ xs ∧ e ∈ share := by
  cases hl : xs.lookup place with
  | none =>
      rw [hl] at h
      cases h
  | some share =>
      obtain ⟨before, after, rfl, -⟩ := List.lookup_eq_some_iff.1 hl
      rw [hl] at h
      exact ⟨share, by simp, h⟩

theorem getD_lookup_eq {xs : List (Nat × List Entity)} (h : xs.Pairwise fun p q => p.1 < q.1) (place : Nat) :
    (xs.lookup place).getD [] = (xs.filter (·.1 == place)).flatMap (·.2) := by
  induction xs with
  | nil => rfl
  | cons p xs ih =>
      obtain ⟨hp, h⟩ := List.pairwise_cons.1 h
      rw [List.lookup_cons]
      by_cases hplace : p.1 = place
      · have hrest : xs.filter (·.1 == place) = [] := by
          rw [List.filter_eq_nil_iff]
          intro q hq
          have := hp q hq
          simp only [beq_iff_eq]
          omega
        simp [hplace, hrest]
      · rw [beq_eq_false_iff_ne.2 (Ne.symm hplace), List.filter_cons_of_neg (by simpa using hplace)]
        exact ih h

/-- Looked up at all places, the shares of some of them come to all of these. -/
theorem flatMap_lookup_range {xs : List (Nat × List Entity)} (h : xs.Pairwise fun p q => p.1 < q.1) {n : Nat}
    (hlt : ∀ p ∈ xs, p.1 < n) : (List.range n).flatMap (fun i => (xs.lookup i).getD []) = xs.flatMap (·.2) := by
  simp only [getD_lookup_eq h]
  rw [← List.flatMap_assoc, Branches.flatMap_filter_range (h.imp Nat.le_of_lt) hlt]

/-- What goes beside the shares goes to providers of the full history, and is for them. -/
theorem Fits.mem_extra (h : s.Fits endpoints) {archive : Branches Nat} (harchive : s.archive = some archive)
    {place : Nat} {e : Entity} (he : e ∈ ((extra archive needed entities).lookup place).getD []) :
    needed.contains e.importKey = true ∧ ∃ endpoint, (endpoint, place) ∈ archivers endpoints := by
  obtain ⟨share, hshare, he⟩ := mem_of_lookup he
  refine ⟨(List.mem_filter.1 (mem_of_mem_split (h.archive_ne_nil _ harchive) hshare he)).2, ?_⟩
  have hplace : place ∈ archive.branches.map (·.1) := by
    rw [← Branches.map_split_fst]
    exact List.mem_map_of_mem hshare
  rw [h.archive_places _ harchive] at hplace
  obtain ⟨⟨endpoint, _⟩, hmem, rfl⟩ := List.mem_map.1 hplace
  exact ⟨endpoint, hmem⟩

theorem Fits.map_shares_fst (h : s.Fits endpoints) (needed : List String) (entities : List Entity) :
    (s.shares needed entities).map (·.1) = List.range endpoints.length := by
  cases harchive : s.archive with
  | none => rw [shares_of_none harchive, Branches.map_split_fst, h.places]
  | some archive =>
      rw [shares_of_some harchive, List.map_map, ← h.places, ← Branches.map_split_fst]
      rfl

/-- A share has a part that any provider could have, and the part that is bound to its provider. -/
structure Parts (s : Sharing) (needed : List String) (free bound : List Entity) : Prop where
  free : ∀ e ∈ free, s.binds needed e = false
  bound : ∀ e ∈ bound, s.binds needed e = true

theorem Parts.filter_free {free bound : List Entity} (h : s.Parts needed free bound) :
    (free ++ bound).filter (!s.binds needed ·) = free := by
  rw [List.filter_append, List.filter_eq_self.2 fun e he => by simp [h.free e he],
    List.filter_eq_nil_iff.2 fun e he => by simp [h.bound e he], List.append_nil]

theorem Parts.filter_bound {free bound : List Entity} (h : s.Parts needed free bound) :
    (free ++ bound).filter (s.binds needed ·) = bound := by
  rw [List.filter_append, List.filter_eq_nil_iff.2 fun e he => by simp [h.free e he],
    List.filter_eq_self.2 fun e he => by simp [h.bound e he], List.nil_append]

theorem Fits.parts (h : s.Fits endpoints) {archive : Branches Nat} (harchive : s.archive = some archive)
    {p : Nat × List Entity} (hp : p ∈ s.all.split (entities.filter fun e => !needed.contains e.importKey)) :
    s.Parts needed p.2 (((extra archive needed entities).lookup p.1).getD []) := by
  refine ⟨?_, ?_⟩
  · intro e he
    have hfree := (List.mem_filter.1 (mem_of_mem_split h.ne_nil hp he)).2
    rw [binds_of_some harchive]
    simpa using hfree
  · intro e he
    rw [binds_of_some harchive]
    exact (h.mem_extra harchive he).1

/-- What is bound to a provider comes after the rest of its share. -/
theorem Fits.share_eq (h : s.Fits endpoints) {p : Nat × List Entity} (hp : p ∈ s.shares needed entities) :
    p.2 = p.2.filter (!s.binds needed ·) ++ p.2.filter (s.binds needed ·) := by
  cases harchive : s.archive with
  | none => simp [binds_of_none harchive]
  | some archive =>
      rw [shares_of_some harchive] at hp
      obtain ⟨q, hq, rfl⟩ := List.mem_map.1 hp
      have hparts := h.parts harchive hq
      rw [hparts.filter_free, hparts.filter_bound]

theorem Fits.flatMap_free (h : s.Fits endpoints) (needed : List String) (entities : List Entity) :
    (s.shares needed entities).flatMap (fun p => p.2.filter (!s.binds needed ·)) =
      entities.filter (!s.binds needed ·) := by
  cases harchive : s.archive with
  | none =>
      rw [shares_of_none harchive]
      simp [binds_of_none harchive, Branches.flatMap_split h.ne_nil]
  | some archive =>
      rw [shares_of_some harchive, List.flatMap_map,
        List.flatMap_congr fun q hq => (h.parts harchive hq).filter_free, Branches.flatMap_split h.ne_nil]
      simp only [binds_of_some harchive]

theorem Fits.flatMap_bound (h : s.Fits endpoints) (needed : List String) (entities : List Entity) :
    (s.shares needed entities).flatMap (fun p => p.2.filter (s.binds needed ·)) =
      entities.filter (s.binds needed ·) := by
  cases harchive : s.archive with
  | none => simp [binds_of_none harchive]
  | some archive =>
      have hkeys : (extra archive needed entities).map (·.1) = (archivers endpoints).map (·.2) := by
        rw [extra, Branches.map_split_fst, h.archive_places _ harchive]
      have hplaces : ((extra archive needed entities).map (·.1)).Sublist (List.range endpoints.length) := by
        rw [hkeys, List.range_eq_range', ← List.zipIdx_map_snd 0 endpoints]
        exact List.filter_sublist.map _
      have hasc : (extra archive needed entities).Pairwise fun p q => p.1 < q.1 :=
        List.pairwise_map.1 (List.pairwise_lt_range.sublist hplaces)
      have hlt : ∀ p ∈ extra archive needed entities, p.1 < endpoints.length := fun p hp =>
        List.mem_range.1 (hplaces.mem (List.mem_map_of_mem hp))
      rw [shares_of_some harchive, List.flatMap_map,
        List.flatMap_congr fun q hq => (h.parts harchive hq).filter_bound]
      calc (s.all.split _).flatMap (fun q => ((extra archive needed entities).lookup q.1).getD [])
          = ((s.all.split _).map (·.1)).flatMap fun i => ((extra archive needed entities).lookup i).getD [] := by
            rw [List.flatMap_map]
        _ = (extra archive needed entities).flatMap (·.2) := by
            rw [Branches.map_split_fst, h.places, flatMap_lookup_range hasc hlt]
        _ = entities.filter (s.binds needed ·) := by
            rw [extra, Branches.flatMap_split (h.archive_ne_nil _ harchive)]
            simp only [binds_of_some harchive]

/-! ## What a poll shares out -/

/-- The shares of a list: each key once and nothing else, each part of a share in the order of the keys, and what
is flagged with providers of the full history, if there are any. -/
structure SharesOut (s : Sharing) (endpoints : List Endpoint) (needed : List String) (entities : List Entity)
    (shares : List (Nat × List Entity)) : Prop where
  places : shares.map (·.1) = List.range endpoints.length
  polled : ∀ e ∈ shares.flatMap (·.2), e ∈ entities
  distinct : ((shares.flatMap (·.2)).map (·.importKey)).Nodup
  keys : ∀ key, key ∈ (shares.flatMap (·.2)).map (·.importKey) ↔ key ∈ entities.map (·.importKey)
  ordered : ∀ p ∈ shares, ∃ free bound, p.2 = free ++ bound ∧ s.Parts needed free bound ∧
    free.Pairwise (fun a b => a.importKey < b.importKey) ∧ bound.Pairwise fun a b => a.importKey < b.importKey
  archived : (∃ e ∈ endpoints, e.limitations.archive = true) → ∀ p ∈ shares, ∀ e ∈ p.2, e.importKey ∈ needed →
    ∃ endpoint, endpoints[p.1]? = some endpoint ∧ endpoint.limitations.archive = true

theorem Fits.perm_shares (h : s.Fits endpoints) (needed : List String) (entities : List Entity) :
    ((s.shares needed entities).flatMap (·.2)).Perm entities := by
  have hparts : (s.shares needed entities).flatMap (·.2) = (s.shares needed entities).flatMap fun p =>
      p.2.filter (!s.binds needed ·) ++ p.2.filter (s.binds needed ·) :=
    List.flatMap_congr fun p hp => h.share_eq hp
  rw [hparts]
  refine (List.flatMap_append_perm _ _ _).symm.trans ?_
  rw [h.flatMap_free, h.flatMap_bound]
  exact List.perm_append_comm.trans (List.filter_append_perm _ _)

theorem Fits.archive_isSome (h : s.Fits endpoints) (harchive : ∃ e ∈ endpoints, e.limitations.archive = true) :
    ∃ archive, s.archive = some archive := by
  cases hs : s.archive with
  | some archive => exact ⟨archive, rfl⟩
  | none =>
      obtain ⟨e, he, hlimit⟩ := harchive
      obtain ⟨place, hplace⟩ := List.mem_iff_getElem?.1 he
      have hmem : (e, place) ∈ archivers endpoints :=
        List.mem_filter.2 ⟨List.mk_mem_zipIdx_iff_getElem?.2 hplace, hlimit⟩
      rw [h.none_archives hs] at hmem
      cases hmem

theorem Fits.archived (h : s.Fits endpoints) (harchive : ∃ e ∈ endpoints, e.limitations.archive = true)
    {p : Nat × List Entity} (hp : p ∈ s.shares needed entities) {e : Entity} (he : e ∈ p.2)
    (hneeded : e.importKey ∈ needed) :
    ∃ endpoint, endpoints[p.1]? = some endpoint ∧ endpoint.limitations.archive = true := by
  obtain ⟨archive, hsome⟩ := h.archive_isSome harchive
  rw [shares_of_some hsome] at hp
  obtain ⟨q, hq, rfl⟩ := List.mem_map.1 hp
  rcases List.mem_append.1 he with hfree | hbound
  · have hno := (List.mem_filter.1 (mem_of_mem_split h.ne_nil hq hfree)).2
    rw [List.contains_iff_mem.2 hneeded] at hno
    cases hno
  · obtain ⟨endpoint, hmem⟩ := (h.mem_extra hsome hbound).2
    obtain ⟨hplace, hlimit⟩ := List.mem_filter.1 hmem
    exact ⟨endpoint, List.mk_mem_zipIdx_iff_getElem?.1 hplace, hlimit⟩

theorem Fits.sharesOut (h : s.Fits endpoints) (needed : List String) (entities : List Entity) :
    s.SharesOut endpoints needed entities (s.shares needed (canonical entities)) := by
  have hperm := h.perm_shares needed (canonical entities)
  refine ⟨h.map_shares_fst _ _, ?_, ?_, ?_, ?_, ?_⟩
  · intro e he
    exact mem_of_mem_canonical (hperm.mem_iff.1 he)
  · rw [(hperm.map _).nodup_iff, List.nodup_iff_pairwise_ne, List.pairwise_map]
    exact (ascending_canonical entities).imp ne_of_lt
  · intro key
    rw [(hperm.map _).mem_iff, mem_keys_canonical]
  · intro p hp
    refine ⟨_, _, h.share_eq hp, ⟨?_, ?_⟩, ?_, ?_⟩
    · intro e he
      simpa using (List.mem_filter.1 he).2
    · intro e he
      exact (List.mem_filter.1 he).2
    · have hsub : (p.2.filter (!s.binds needed ·)).Sublist ((canonical entities).filter (!s.binds needed ·)) := by
        rw [← h.flatMap_free needed (canonical entities), List.flatMap_def]
        exact List.sublist_flatten_of_mem (List.mem_map_of_mem hp)
      exact ((ascending_canonical entities).filter _).sublist hsub
    · have hsub : (p.2.filter (s.binds needed ·)).Sublist ((canonical entities).filter (s.binds needed ·)) := by
        rw [← h.flatMap_bound needed (canonical entities), List.flatMap_def]
        exact List.sublist_flatten_of_mem (List.mem_map_of_mem hp)
      exact ((ascending_canonical entities).filter _).sublist hsub
  · intro harchive p hp e he hneeded
    exact h.archived harchive hp he hneeded

end Shares

end Sharing

end Backfill
