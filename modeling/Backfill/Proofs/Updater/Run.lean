import Backfill.Clock
import Backfill.Proofs.Updater

/-!
# Runs of the updater

Whatever arrives in whatever order, and whenever a deadline expires, the flushes of a run hold what was received,
end to end. There is a deadline exactly while a group is being collected. A flush that the store refuses leaves
the store as it is, and the other flushes go as they would without it.
-/

namespace Backfill

variable {α : Type}

namespace Updater

/-- All outcomes of some events, in the order in which they arrive. -/
def received (events : List (Clock × UpdaterEvent α)) : List (Outcome α) := events.flatMap (·.2.outcomes)

theorem received_append (a b : List (Clock × UpdaterEvent α)) : received (a ++ b) = received a ++ received b :=
  List.flatMap_append

/-! ## The group at hand -/

/-- The group is not full, and there is a deadline if there is a group. -/
structure Ready (limits : GroupLimits) (u : Updater α) : Prop where
  room : u.group.length < max 1 limits.maxSize
  armed : u.due.isSome = true ↔ u.group ≠ []

theorem ready_empty (limits : GroupLimits) : Ready limits ({} : Updater α) where
  room := by
    simp only [List.length_nil]
    omega
  armed := by simp

theorem eq_of_mem_complete {group g : List (Outcome α)} (h : g ∈ complete group) : g = group := by
  rw [complete] at h
  split at h
  · cases h
  · exact List.mem_singleton.1 h

theorem Ready.collect {limits : GroupLimits} {u : Updater α} (h : Ready limits u) (timer : Nat) (o : Outcome α) :
    Ready limits (collect limits timer u o).1 ∧
      ∀ g ∈ (collect limits timer u o).2, g.length ≤ max 1 limits.maxSize := by
  have hroom := h.room
  have hlength : (u.group ++ [o]).length = u.group.length + 1 := List.length_append
  by_cases hfull : max 1 limits.maxSize ≤ (u.group ++ [o]).length
  · rw [Updater.collect, if_pos hfull]
    refine ⟨ready_empty limits, fun g hg => ?_⟩
    rw [eq_of_mem_complete hg]
    omega
  · rw [Updater.collect, if_neg hfull]
    refine ⟨⟨by simpa using hfull, ?_⟩, by simp⟩
    cases hgroup : u.group with
    | nil => simp
    | cons first group =>
        have hdue : u.due.isSome = true := h.armed.2 (by rw [hgroup]; exact List.cons_ne_nil _ _)
        simp [hdue]

theorem Ready.step {limits : GroupLimits} {u : Updater α} (h : Ready limits u) (timer : Nat)
    (event : UpdaterEvent α) :
    Ready limits (u.step limits timer event).1 ∧
      ∀ g ∈ (u.step limits timer event).2, g.length ≤ max 1 limits.maxSize := by
  have hcomplete : ∀ g ∈ complete u.group, g.length ≤ max 1 limits.maxSize := by
    intro g hg
    rw [eq_of_mem_complete hg]
    exact h.room.le
  cases event with
  | outcome o =>
      rw [Updater.step]
      split
      · obtain ⟨hnext, hgroups⟩ := (ready_empty limits).collect timer o
        exact ⟨hnext, List.forall_mem_append.2 ⟨hcomplete, hgroups⟩⟩
      · exact h.collect timer o
  | deadline => exact ⟨ready_empty limits, hcomplete⟩
  | closed => exact ⟨ready_empty limits, hcomplete⟩

/-- A deadline is that of the first outcome of its group. -/
theorem due_collect {limits : GroupLimits} {timer : Nat} {u : Updater α} {o : Outcome α} {due : Nat}
    (h : due ∈ (Updater.collect limits timer u o).1.due) :
    (u.group = [] ∧ (Updater.collect limits timer u o).1.group = [o] ∧ due = timer + limits.maxWait) ∨
      (due ∈ u.due ∧ (Updater.collect limits timer u o).1.group = u.group ++ [o]) := by
  by_cases hfull : max 1 limits.maxSize ≤ (u.group ++ [o]).length
  · rw [Updater.collect, if_pos hfull] at h
    cases h
  · rw [Updater.collect, if_neg hfull] at h ⊢
    cases hgroup : u.group with
    | nil =>
        rw [hgroup] at h
        exact Or.inl ⟨rfl, rfl, (Option.some.inj h).symm⟩
    | cons first group =>
        rw [hgroup] at h
        exact Or.inr ⟨h, rfl⟩

theorem due_step {limits : GroupLimits} {timer : Nat} {u : Updater α} {event : UpdaterEvent α} {due : Nat}
    (h : due ∈ (u.step limits timer event).1.due) :
    (∃ o, event = .outcome o ∧ (u.step limits timer event).1.group = [o] ∧ due = timer + limits.maxWait) ∨
      (due ∈ u.due ∧ (u.step limits timer event).1.group = u.group ++ event.outcomes) := by
  cases event with
  | outcome o =>
      rw [Updater.step] at h ⊢
      split at h
      · rename_i hother
        rw [if_pos hother]
        rcases due_collect h with ⟨-, hgroup, hdue⟩ | ⟨hnone, -⟩
        · exact Or.inl ⟨o, rfl, hgroup, hdue⟩
        · cases hnone
      · rename_i hsame
        rw [if_neg hsame]
        rcases due_collect h with ⟨-, hgroup, hdue⟩ | hold
        · exact Or.inl ⟨o, rfl, hgroup, hdue⟩
        · exact Or.inr hold
  | deadline => cases h
  | closed => cases h

end Updater

/-! ## Flushes -/

/-- A group that is handed to the store. -/
structure Flush (α : Type) where
  date : Timestamp
  group : List (Outcome α)

/-- A group fit for a flush. -/
structure Flush.Fit (limits : GroupLimits) (f : Flush α) : Prop where
  nonempty : f.group ≠ []
  oneKey : OneKey f.group
  length_le : f.group.length ≤ max 1 limits.maxSize

variable [StoredAxis α]

namespace Store

/-- The merges of flushes one after another, and the store after them. -/
def flushAll (s : Store) : List (Flush α) → List (Merge α) × Store
  | [] => ([], s)
  | f :: rest =>
    let (merges, s) := Merge.ofGroups s f.date [f.group]
    let (more, s) := flushAll s rest
    (merges ++ more, s)

/-- There is no state under the key of the flush, or it does not take the outcomes. -/
def Refuses (s : Store) (f : Flush α) : Prop :=
  ∀ o ∈ f.group.head?, ∀ state, s.get? o.importKey = some state → ∃ e, state.apply f.group f.date = .error e

theorem flushAll_append (s : Store) (a b : List (Flush α)) : s.flushAll (a ++ b) =
    ((s.flushAll a).1 ++ ((s.flushAll a).2.flushAll b).1, ((s.flushAll a).2.flushAll b).2) := by
  induction a generalizing s with
  | nil => rfl
  | cons f a ih => simp only [List.cons_append, flushAll, ih, List.append_assoc]

theorem ofGroups_eq_flushAll (s : Store) (date : Timestamp) (groups : List (List (Outcome α))) :
    Merge.ofGroups s date groups = s.flushAll (groups.map (⟨date, ·⟩)) := by
  induction groups generalizing s with
  | nil => rfl
  | cons group groups ih =>
      cases group with
      | nil => simp only [List.map_cons, flushAll, Merge.ofGroups, List.nil_append, ih]
      | cons o group => simp only [List.map_cons, flushAll, Merge.ofGroups, List.cons_append, List.nil_append, ih]

theorem merge_of_refuses {s : Store} {date : Timestamp} {o : Outcome α} {group : List (Outcome α)}
    (h : s.Refuses ⟨date, o :: group⟩) : ∃ e, s.merge o.importKey (o :: group) date = .error e := by
  cases hs : s.get? o.importKey with
  | none => exact ⟨_, by rw [merge, hs]⟩
  | some state =>
      obtain ⟨e, he⟩ := h o rfl state hs
      exact ⟨.mergeRejected e, by simp only [merge, hs, he]⟩

/-- A flush that is refused has one error to show for it and nothing else. -/
theorem flushAll_of_refuses {s : Store} {f : Flush α} (h : s.Refuses f) (hne : f.group ≠ []) :
    ∃ m e, m.result = .error e ∧ s.flushAll [f] = ([m], s) := by
  obtain ⟨date, group⟩ := f
  cases group with
  | nil => exact absurd rfl hne
  | cons o group =>
      obtain ⟨e, he⟩ := merge_of_refuses h
      refine ⟨⟨o.importKey, (o :: group).length, .error e⟩, e, rfl, ?_⟩
      simp only [flushAll, Merge.ofGroups, Merge.ofGroup, he, afterMerge]
      rfl

theorem length_flushAll (s : Store) {flushes : List (Flush α)} (h : ∀ f ∈ flushes, f.group ≠ []) :
    (s.flushAll flushes).1.length = flushes.length := by
  induction flushes generalizing s with
  | nil => rfl
  | cons f flushes ih =>
      obtain ⟨hfirst, hrest⟩ := List.forall_mem_cons.1 h
      obtain ⟨date, group⟩ := f
      cases group with
      | nil => exact absurd rfl hfirst
      | cons o group => simp [flushAll, Merge.ofGroups, ih _ hrest]

/-- Without a flush that is refused, the store ends as it does with it, and so does every other flush. -/
theorem flushAll_without {s : Store} {before after : List (Flush α)} {f : Flush α}
    (hne : ∀ g ∈ before ++ f :: after, g.group ≠ []) (h : (s.flushAll before).2.Refuses f) :
    s.flushAll (before ++ after) = ((s.flushAll (before ++ f :: after)).1.eraseIdx before.length,
      (s.flushAll (before ++ f :: after)).2) := by
  obtain ⟨m, e, -, hrefused⟩ := flushAll_of_refuses h (hne f (List.mem_append_right _ List.mem_cons_self))
  have hlength := s.length_flushAll fun g hg => hne g (List.mem_append_left _ hg)
  have hafter : (s.flushAll before).2.flushAll (f :: after) =
      (m :: ((s.flushAll before).2.flushAll after).1, ((s.flushAll before).2.flushAll after).2) := by
    rw [← List.singleton_append, flushAll_append, hrefused]
    rfl
  rw [flushAll_append, flushAll_append, hafter, ← hlength]
  simp [List.eraseIdx_append_of_length_le]

end Store

/-! ## Runs -/

/-- A run of the updater: the group at hand, the store, and records of what was flushed and what came of it. -/
structure UpdaterRun (α : Type) where
  updater : Updater α := {}
  store : Store
  flushes : List (Flush α) := []
  merges : List (Merge α) := []

open Updater (received received_append)

namespace UpdaterRun

def tell (limits : GroupLimits) (s : UpdaterRun α) (told : Clock × UpdaterEvent α) : UpdaterRun α :=
  let (updater, groups) := s.updater.step limits told.1.timer told.2
  let (merges, store) := Merge.ofGroups s.store told.1.date groups
  { updater, store, flushes := s.flushes ++ groups.map (⟨told.1.date, ·⟩), merges := s.merges ++ merges }

/-- What is recorded of an event is what was done: its groups were merged one after another, and the store is what came
of it. -/
theorem tell_recorded (limits : GroupLimits) (s : UpdaterRun α) (told : Clock × UpdaterEvent α) :
    ∃ groups merges, (s.tell limits told).flushes = s.flushes ++ groups.map (⟨told.1.date, ·⟩) ∧
      (s.tell limits told).merges = s.merges ++ merges ∧
      Merge.ofGroups s.store told.1.date groups = (merges, (s.tell limits told).store) :=
  ⟨_, _, rfl, rfl, rfl⟩

/-- All senders are gone. -/
def close (limits : GroupLimits) (clock : Clock) (s : UpdaterRun α) : UpdaterRun α := s.tell limits (clock, .closed)

def run (limits : GroupLimits) (s : UpdaterRun α) (events : List (Clock × UpdaterEvent α)) : UpdaterRun α :=
  events.foldl (tell limits) s

/-- After some events: what arrived was flushed or is at hand, and the store holds what came of the flushes. -/
structure Sound (limits : GroupLimits) (first : Store) (events : List (Clock × UpdaterEvent α)) (s : UpdaterRun α) :
    Prop where
  ready : s.updater.Ready limits
  oneKey : OneKey s.updater.group
  fit : ∀ f ∈ s.flushes, f.Fit limits
  flushed : s.flushes.flatMap (·.group) ++ s.updater.group = received events
  stored : first.flushAll s.flushes = (s.merges, s.store)
  due : ∀ due ∈ s.updater.due, ∃ before clock o after, events = before ++ (clock, .outcome o) :: after ∧
    s.updater.group = o :: received after ∧ due = clock.timer + limits.maxWait

theorem sound_start (limits : GroupLimits) (store : Store) : Sound limits store [] ({ store } : UpdaterRun α) where
  ready := Updater.ready_empty limits
  oneKey := by simp [OneKey]
  fit := by simp
  flushed := rfl
  stored := rfl
  due := by simp

theorem Sound.tell {limits : GroupLimits} {first : Store} {events : List (Clock × UpdaterEvent α)} {s : UpdaterRun α}
    (h : Sound limits first events s) (told : Clock × UpdaterEvent α) :
    Sound limits first (events ++ [told]) (s.tell limits told) := by
  obtain ⟨clock, event⟩ := told
  obtain ⟨hready, hlength⟩ := h.ready.step clock.timer event
  obtain ⟨honeKey, hgroups⟩ := Updater.oneKey_step limits clock.timer h.oneKey event
  refine ⟨hready, honeKey, fun f hf => ?_, ?_, ?_, fun due hdue => ?_⟩
  · rcases List.mem_append.1 hf with hf | hf
    · exact h.fit f hf
    · obtain ⟨group, hg, rfl⟩ := List.mem_map.1 hf
      exact ⟨(hgroups group hg).1, (hgroups group hg).2, hlength group hg⟩
  · have hgroups : ((s.updater.step limits clock.timer event).2.map (Flush.mk clock.date)).flatMap (·.group) =
        (s.updater.step limits clock.timer event).2.flatten := by
      rw [List.flatMap_map]
      exact List.flatMap_id
    simp only [UpdaterRun.tell]
    rw [received_append, ← h.flushed, List.flatMap_append, hgroups, List.append_assoc, Updater.flatten_step,
      List.append_assoc]
    simp [received]
  · obtain ⟨groups, merges, hflushes, hmerges, hstore⟩ := s.tell_recorded limits (clock, event)
    rw [hflushes, Store.flushAll_append, h.stored, ← Store.ofGroups_eq_flushAll, hstore, hmerges]
  · rcases Updater.due_step hdue with ⟨o, rfl, hgroup, hdue⟩ | ⟨hold, hgroup⟩
    · exact ⟨events, clock, o, [], rfl, hgroup, hdue⟩
    · obtain ⟨before, earlier, o, after, rfl, hfirst, hdue⟩ := h.due due hold
      refine ⟨before, earlier, o, after ++ [(clock, event)], by simp, ?_, hdue⟩
      refine hgroup.trans ?_
      rw [hfirst, received_append]
      simp [received]

theorem Sound.run {limits : GroupLimits} {first : Store} {events : List (Clock × UpdaterEvent α)} {s : UpdaterRun α}
    (h : Sound limits first events s) (more : List (Clock × UpdaterEvent α)) :
    Sound limits first (events ++ more) (s.run limits more) := by
  induction more generalizing events s with
  | nil =>
      rw [List.append_nil]
      exact h
  | cons told more ih =>
      rw [← List.singleton_append, ← List.append_assoc]
      exact ih (h.tell told)

theorem sound_run (limits : GroupLimits) (store : Store) (events : List (Clock × UpdaterEvent α)) :
    Sound limits store events (({ store } : UpdaterRun α).run limits events) :=
  (sound_start limits store).run events

/-- What is received is flushed once and in order, in groups of one key and of bounded size, and a deadline is set
exactly while there is a group. A flush without a state, or whose merge is rejected, changes nothing: the store and
the other merges are those of the other flushes. -/
theorem updater_delivers_once (limits : GroupLimits) (store : Store) (events : List (Clock × UpdaterEvent α))
    (closing : Clock) :
    let ended := (({ store } : UpdaterRun α).run limits events).close limits closing
    ended.flushes.flatMap (·.group) = received events ∧
    (∀ f ∈ ended.flushes, f.group ≠ [] ∧ OneKey f.group ∧ f.group.length ≤ max 1 limits.maxSize) ∧
    (∀ earlier, earlier <+: events →
      ((({ store } : UpdaterRun α).run limits earlier).updater.due.isSome = true ↔
        (({ store } : UpdaterRun α).run limits earlier).updater.group ≠ [])) ∧
    store.flushAll ended.flushes = (ended.merges, ended.store) ∧
    ∀ before f after, ended.flushes = before ++ f :: after → (store.flushAll before).2.Refuses f →
      (store.flushAll (before ++ [f])).2 = (store.flushAll before).2 ∧
      store.flushAll (before ++ after) = (ended.merges.eraseIdx before.length, ended.store) := by
  intro ended
  have hended : Sound limits store (events ++ [(closing, .closed)]) ended := (sound_run limits store events).tell _
  refine ⟨?_, fun f hf => ?_, fun earlier _ => (sound_run limits store earlier).ready.armed, hended.stored,
    fun before f after hflushes hrefused => ?_⟩
  · have hall := hended.flushed
    rw [received_append] at hall
    -- nothing is at hand once the channel is closed, and closing it brings nothing
    change _ ++ [] = _ ++ [] at hall
    rwa [List.append_nil, List.append_nil] at hall
  · exact ⟨(hended.fit f hf).nonempty, (hended.fit f hf).oneKey, (hended.fit f hf).length_le⟩
  · have hne : ∀ g ∈ before ++ f :: after, g.group ≠ [] := by
      rw [← hflushes]
      exact fun g hg => (hended.fit g hg).nonempty
    obtain ⟨m, e, -, hm⟩ := Store.flushAll_of_refuses hrefused (hne f (List.mem_append_right _ List.mem_cons_self))
    refine ⟨by rw [Store.flushAll_append, hm], ?_⟩
    rw [Store.flushAll_without hne hrefused, ← hflushes, hended.stored]

/-- The deadline of a group is that of its first outcome. -/
theorem due_of_first (limits : GroupLimits) (store : Store) (events : List (Clock × UpdaterEvent α)) {due : Nat}
    (h : due ∈ (({ store } : UpdaterRun α).run limits events).updater.due) :
    ∃ before clock o after, events = before ++ (clock, .outcome o) :: after ∧
      (({ store } : UpdaterRun α).run limits events).updater.group = o :: received after ∧
      due = clock.timer + limits.maxWait :=
  (sound_run limits store events).due due h

end UpdaterRun

end Backfill
