import Mathlib.Data.List.Pairwise

/-!
# Running tallies

A list is worked off from the left; each item gives some output and moves a state on. What an observer
sees of the output follows from the one item that concerns it, if all other items leave both the output
that it sees and its view of the state alone.
-/

namespace Backfill.Plan

variable {σ β γ δ η : Type}

/-- The outputs of all items, one after another, and the state after them. -/
def tally (f : σ → β → List γ × σ) : σ → List β → List γ × σ
  | s, [] => ([], s)
  | s, x :: xs => ((f s x).1 ++ (tally f (f s x).2 xs).1, (tally f (f s x).2 xs).2)

theorem foldl_eq_tally (f : σ → β → List γ × σ) (xs : List β) (out : List γ) (s : σ) :
    xs.foldl (fun p x => (p.1 ++ (f p.2 x).1, (f p.2 x).2)) (out, s) =
      (out ++ (tally f s xs).1, (tally f s xs).2) := by
  induction xs generalizing out s with
  | nil => simp [tally]
  | cons x xs ih => rw [List.foldl_cons, ih, tally, List.append_assoc]

theorem flatMap_eq_tally (g : β → List γ) (xs : List β) :
    xs.flatMap g = (tally (fun (u : Unit) x => (g x, u)) () xs).1 := by
  induction xs with
  | nil => rfl
  | cons x xs ih => rw [List.flatMap_cons, ih, tally]

theorem mem_tally {f : σ → β → List γ × σ} {xs : List β} {s : σ} {c : γ} (hc : c ∈ (tally f s xs).1) :
    ∃ s', ∃ x ∈ xs, c ∈ (f s' x).1 := by
  induction xs generalizing s with
  | nil => simp [tally] at hc
  | cons x xs ih =>
      rw [tally, List.mem_append] at hc
      rcases hc with hc | hc
      · exact ⟨s, x, List.mem_cons_self, hc⟩
      · obtain ⟨s', y, hy, hc⟩ := ih hc
        exact ⟨s', y, List.mem_cons_of_mem x hy, hc⟩

theorem tally_inv {f : σ → β → List γ × σ} (inv : σ → Prop) {xs : List β} {s : σ}
    (hinv : ∀ s, ∀ x ∈ xs, inv s → inv (f s x).2) (hs : inv s) : inv (tally f s xs).2 := by
  induction xs generalizing s with
  | nil => exact hs
  | cons x xs ih =>
      exact ih (fun s y hy => hinv s y (List.mem_cons_of_mem x hy)) (hinv s x List.mem_cons_self hs)

/-! ## One observer -/

/-- An item does not concern the observer: nothing of its output is seen and the view stays the same. -/
def Quiet (f : σ → β → List γ × σ) (inv : σ → Prop) (seen : γ → List δ) (view : σ → η) (x : β) : Prop :=
  ∀ s, inv s → (f s x).1.flatMap seen = [] ∧ view (f s x).2 = view s

variable {f : σ → β → List γ × σ} {inv : σ → Prop} {seen : γ → List δ} {view : σ → η}

theorem tally_quiet {xs : List β} (hq : ∀ x ∈ xs, Quiet f inv seen view x)
    (hinv : ∀ s, ∀ x ∈ xs, inv s → inv (f s x).2) {s : σ} (hs : inv s) :
    (tally f s xs).1.flatMap seen = [] ∧ view (tally f s xs).2 = view s := by
  induction xs generalizing s with
  | nil => exact ⟨rfl, rfl⟩
  | cons x xs ih =>
      obtain ⟨hx, hq⟩ := List.forall_mem_cons.1 hq
      obtain ⟨hout, hview⟩ := hx s hs
      obtain ⟨houts, hviews⟩ := ih hq (fun s y hy => hinv s y (List.mem_cons_of_mem x hy))
        (hinv s x List.mem_cons_self hs)
      exact ⟨by rw [tally, List.flatMap_append, hout, houts, List.append_nil], by rw [tally, hviews, hview]⟩

/-- Of the items only one concerns the observer, who sees what that item does in a state of the same view. -/
theorem tally_once {mine : β → Prop} {xs : List β} (hq : ∀ x ∈ xs, ¬ mine x → Quiet f inv seen view x)
    (hinv : ∀ s, ∀ x ∈ xs, inv s → inv (f s x).2) (hpair : xs.Pairwise fun a b => ¬ (mine a ∧ mine b))
    {x : β} (hx : x ∈ xs) (hmine : mine x) {s : σ} (hs : inv s) :
    ∃ s', inv s' ∧ view s' = view s ∧ (tally f s xs).1.flatMap seen = (f s' x).1.flatMap seen ∧
      view (tally f s xs).2 = view (f s' x).2 := by
  induction xs generalizing s with
  | nil => simp at hx
  | cons y xs ih =>
      obtain ⟨hy, hpair⟩ := List.pairwise_cons.1 hpair
      have hinv' : ∀ s, ∀ z ∈ xs, inv s → inv (f s z).2 := fun s z hz => hinv s z (List.mem_cons_of_mem y hz)
      have hnext := hinv s y List.mem_cons_self hs
      by_cases hm : mine y
      · have hrest : ∀ z ∈ xs, ¬ mine z := fun z hz h => hy z hz ⟨hm, h⟩
        obtain rfl : x = y := by
          rcases List.mem_cons.1 hx with rfl | hx
          · rfl
          · exact absurd hmine (hrest x hx)
        obtain ⟨houts, hviews⟩ := tally_quiet
          (fun z hz => hq z (List.mem_cons_of_mem x hz) (hrest z hz)) hinv' hnext
        exact ⟨s, hs, rfl, by rw [tally, List.flatMap_append, houts, List.append_nil], by rw [tally, hviews]⟩
      · have hx : x ∈ xs := by
          rcases List.mem_cons.1 hx with rfl | hx
          · exact absurd hmine hm
          · exact hx
        obtain ⟨hout, hview⟩ := hq y List.mem_cons_self hm s hs
        obtain ⟨s', hs', hv', hout', hview'⟩ :=
          ih (fun z hz => hq z (List.mem_cons_of_mem y hz)) hinv' hpair hx hnext
        exact ⟨s', hs', hv'.trans hview, by rw [tally, List.flatMap_append, hout, List.nil_append, hout'],
          by rw [tally, hview']⟩

end Backfill.Plan
