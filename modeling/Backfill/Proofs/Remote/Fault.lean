import Backfill.Proofs.Pass.Outcomes
import Backfill.Proofs.Remote
import Mathlib.Data.List.Infix

/-!
# Faults that end a call

An exchange may fail because a body cannot be read, because no reply comes in time, or because there is no connection.
All of these are attempted again but one: where the words of the transport sound like those of a node that has dropped
some state, the fault is taken for that. The words name the address, so the name of a host is enough.
-/

namespace Backfill.Remote

variable {σ : Type} {operation message : String} {f : Fault}

/-- The words of a fault hold a wording for state that a node has dropped. -/
def Fault.SoundsPruned (f : Fault) : Prop :=
  ∃ wording ∈ prunedWordings, wording.toList <:+: f.text.toList.map Char.toLower

/-! ## Wordings in a message -/

theorem tellsPruned_iff :
    tellsPruned message = true ↔
      ∃ wording ∈ prunedWordings, wording.toList <:+: message.toList.map Char.toLower := by
  simp only [tellsPruned, List.any_eq_true, Text.occurs_iff]

/-- An occurrence in a longer text that can neither lie in the front of it nor begin there. -/
theorem infix_of_infix_append {part before after : List Char}
    (hapart : ∀ rest ∈ before.tails, rest ≠ [] → ¬ rest <+: part ∧ ¬ part <+: rest) (h : part <:+: before ++ after) :
    part <:+: after := by
  induction before with
  | nil => exact h
  | cons c before ih =>
      rw [List.tails_cons, List.forall_mem_cons] at hapart
      rcases List.infix_cons_iff.1 h with hfront | hrest
      · obtain ⟨hshort, hlong⟩ := hapart.1 (List.cons_ne_nil c before)
        rcases List.prefix_or_prefix_of_prefix hfront (List.prefix_append (c :: before) after) with hin | hover
        · exact absurd hin hlong
        · exact absurd hover hshort
      · exact ih hapart.2 hrest

/-- The words before those of the transport neither hold a wording nor begin one. -/
theorem tellsPruned_unconnected (text : String) :
    tellsPruned s!"connection failed: {text}" = true ↔
      ∃ wording ∈ prunedWordings, wording.toList <:+: text.toList.map Char.toLower := by
  have hlist : (s!"connection failed: {text}").toList.map Char.toLower =
      "connection failed: ".toList.map Char.toLower ++ text.toList.map Char.toLower := by
    simp [toString]
  have hapart : ∀ wording ∈ prunedWordings, ∀ rest ∈ ("connection failed: ".toList.map Char.toLower).tails,
      rest ≠ [] → ¬ rest <+: wording.toList ∧ ¬ wording.toList <+: rest := by
    decide +kernel
  rw [tellsPruned_iff, hlist]
  refine exists_congr fun wording => and_congr_right fun hmem => ⟨infix_of_infix_append (hapart wording hmem), ?_⟩
  exact fun h => h.trans (List.suffix_append ..).isInfix

theorem tellsPruned_detail (htime : f.timedOut = false) : tellsPruned f.detail = true ↔ f.SoundsPruned := by
  rw [Fault.detail, if_neg (by simp [htime])]
  split
  · exact tellsPruned_unconnected f.text
  · exact tellsPruned_iff

theorem tellsPruned_timedOut (htime : f.timedOut = true) : tellsPruned f.detail = false := by
  rw [Fault.detail, if_pos htime]
  decide +kernel

/-! ## What errors say -/

theorem retryable_errorOfMessage :
    (errorOfMessage operation message).retryable = true ↔ tellsPruned message = false := by
  rw [errorOfMessage]
  cases tellsPruned message <;> simp [RpcError.retryable]

theorem retryable_errorOfFault :
    (errorOfFault operation f).retryable = true ↔ f.undecodable = true ∨ f.timedOut = true ∨ ¬ f.SoundsPruned := by
  rw [errorOfFault]
  cases hbody : f.undecodable with
  | true => simp [RpcError.retryable]
  | false =>
      rw [if_neg (by simp), retryable_errorOfMessage]
      cases htime : f.timedOut with
      | true => simp [tellsPruned_timedOut htime]
      | false => simp [← tellsPruned_detail htime]

/-- The error of a fault is final only as the sign of dropped state. -/
theorem needed_errorOfFault :
    (∃ detail, errorOfFault operation f = .archiveNodeNeeded operation detail) ↔
      (errorOfFault operation f).retryable = false := by
  rw [errorOfFault, errorOfMessage]
  cases f.undecodable
  · cases tellsPruned f.detail <;> simp [RpcError.retryable]
  · simp [RpcError.retryable]

theorem lacksHistory_errorOfFault {batch : List (Query Entity UInt64)} {key : String} :
    Delivery.LacksHistory batch (.error (errorOfFault operation f)) key ↔
      (errorOfFault operation f).retryable = false ∧ ∃ q ∈ batch, ∃ p ∈ q.served, p.1.importKey = key := by
  constructor
  · rintro ⟨place, q, named, detail, hq, hfailed, hserved⟩
    rcases hfailed with herror | ⟨results, hok, -⟩
    · have herror := Except.error.inj herror
      exact ⟨by rw [herror]; rfl, q, List.mem_of_getElem? hq, hserved⟩
    · cases hok
  · rintro ⟨hfinal, q, hq, hserved⟩
    obtain ⟨detail, herror⟩ := needed_errorOfFault.2 hfinal
    obtain ⟨place, hplace, rfl⟩ := List.getElem_of_mem hq
    exact ⟨place, _, operation, detail, List.getElem?_eq_getElem hplace, Or.inl (congrArg _ herror), hserved⟩

/-! ## Faults of a batch -/

/-- A fault is attempted again exactly if a body came, if the time was up, or if the words do not sound like dropped
state. Any other fault ends its call as a sign of dropped state: unless the provider has the full history, all
entities that the batch serves are to move to one that has it. A fault that is attempted again moves none. -/
theorem fault_final_iff (operation : String) (f : Fault) (a : Assignment) (batch : List (Query Entity UInt64))
    (s : Shared σ) :
    ((errorOfFault operation f).retryable = true ↔ f.undecodable = true ∨ f.timedOut = true ∨ ¬ f.SoundsPruned) ∧
    ((∃ detail, errorOfFault operation f = .archiveNodeNeeded operation detail) ↔
      (errorOfFault operation f).retryable = false) ∧
    ∀ key, key ∈ ((Pass.deliver a batch (.error (errorOfFault operation f))).run s).2.archiveNeeded ↔
      key ∈ s.archiveNeeded ∨
        (a.endpoint.limitations.archive = false ∧ (errorOfFault operation f).retryable = false ∧
          ∃ q ∈ batch, ∃ p ∈ q.served, p.1.importKey = key) := by
  refine ⟨retryable_errorOfFault, needed_errorOfFault, fun key => ?_⟩
  rw [(Pass.sent_deliver a batch _ s).2.flagged key, lacksHistory_errorOfFault]

/-- No connection to a host whose name holds one of the wordings. -/
def lostConnection : Fault where
  unconnected := true
  text := "error sending request for url (http://archive.example.org/rpc)"

/-- The lost connection is not attempted again, and its entity moves. -/
theorem lost_connection_moves_entity :
    (errorOfFault "fetch" lostConnection).retryable = false ∧
      Plan.youngPool.importKey ∈
        ((Pass.deliver Feed.youngPoolAssignment [.single Plan.youngPool ⟨5, 6⟩]
          (.error (errorOfFault "fetch" lostConnection))).run Feed.youngPoolShared).2.archiveNeeded := by
  have hfinal : (errorOfFault "fetch" lostConnection).retryable = false := by decide +kernel
  refine ⟨hfinal, ?_⟩
  rw [(Pass.sent_deliver _ _ _ _).2.flagged, lacksHistory_errorOfFault]
  exact Or.inr ⟨rfl, hfinal, _, List.mem_singleton_self _, (Plan.youngPool, [⟨5, 6⟩]), List.mem_singleton_self _, rfl⟩

end Backfill.Remote
