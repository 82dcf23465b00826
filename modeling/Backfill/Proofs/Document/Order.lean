import Backfill.Document.Json
import Backfill.Proofs.Axis
import Mathlib.Data.List.Perm.Basic

/-!
# Documents up to the order of fields

A JSON value has fields in no order; `Json.sorted` writes them in one. What is looked at when a record is read, be it a
field, how deep it is, or whether a part of it is broken, is the same in a document and in its sorted form.
-/

namespace Backfill

namespace Document

variable {σ : Type} {name : String} {names : List String} {xs ys : List (String × Document σ)}

/-- The value of a field that is there at most once. -/
def once? (name : String) (xs : List (String × Document σ)) : Option (Option (Document σ)) :=
  match xs.filter (·.1 == name) with
  | [] => some none
  | [(_, d)] => some (some d)
  | _ => none

theorem once?_perm (h : xs.Perm ys) : once? name xs = once? name ys := by
  have hfilter := h.filter (·.1 == name)
  unfold once?
  generalize xs.filter (·.1 == name) = us at hfilter
  generalize ys.filter (·.1 == name) = vs at hfilter
  match us, vs, hfilter with
  | [], vs, hfilter => rw [hfilter.nil_eq]
  | [_], vs, hfilter => rw [List.singleton_perm.1 hfilter]
  | _ :: _ :: _, [], hfilter => cases hfilter.length_eq
  | _ :: _ :: _, [_], hfilter => cases hfilter.length_eq
  | _ :: _ :: _, _ :: _ :: _, _ => rfl

theorem once?_map (g : Document σ → Document σ) :
    once? name (xs.map fun f => (f.1, g f.2)) = (once? name xs).map (·.map g) := by
  have hfilter : (xs.map fun f => (f.1, g f.2)).filter (·.1 == name) =
      (xs.filter (·.1 == name)).map fun f => (f.1, g f.2) := by
    rw [List.filter_map]
    rfl
  unfold once?
  rw [hfilter]
  generalize xs.filter (·.1 == name) = us
  match us with
  | [] => rfl
  | [_] => rfl
  | _ :: _ :: _ => rfl

theorem record?_fields [Scalar σ] : (Document.fields xs).record? names = names.mapM (once? · xs) := rfl

end Document

/-- Every item is read, or none. -/
theorem mapM_option_map {β γ δ : Type} (f : β → Option γ) (g : γ → δ) (xs : List β) :
    (xs.mapM fun x => (f x).map g) = (xs.mapM f).map (·.map g) := by
  induction xs with
  | nil => rfl
  | cons x xs ih =>
      simp only [List.mapM_cons, ih, Option.pure_def, Option.bind_eq_bind]
      cases f x <;> cases xs.mapM f <;> rfl

theorem mapM_option_congr {β γ : Type} {f g : β → Option γ} {xs : List β} (h : ∀ x ∈ xs, f x = g x) :
    xs.mapM f = xs.mapM g := by
  induction xs with
  | nil => rfl
  | cons x xs ih =>
      rw [List.mapM_cons, List.mapM_cons, h x List.mem_cons_self, ih fun y hy => h y (List.mem_cons_of_mem _ hy)]

namespace Json

/-! ## The sorted form -/

theorem sortedItems_eq (xs : List Json) : sortedItems xs = xs.map sorted := by
  induction xs with
  | nil => rfl
  | cons x xs ih => rw [sortedItems, ih, List.map_cons]

theorem sortedFields_eq (xs : List (String × Json)) : sortedFields xs = xs.map fun f => (f.1, f.2.sorted) := by
  induction xs with
  | nil => rfl
  | cons x xs ih => rw [sortedFields, ih, List.map_cons]

theorem sorted_fields (xs : List (String × Json)) :
    ∃ ys : List (String × Json), sorted (.fields xs) = .fields ys ∧ ys.Perm (xs.map fun f => (f.1, f.2.sorted)) :=
  ⟨_, by rw [sorted, sortedFields_eq], List.mergeSort_perm ..⟩

/-- Fields of different names are the same value in every order. -/
theorem sorted_eq_of_perm {xs ys : List (String × Json)} (h : xs.Perm ys) (hnames : (ys.map (·.1)).Nodup) :
    sorted (.fields xs) = sorted (.fields ys) := by
  have hascending : ∀ zs : List (String × Json),
      ((sortedFields zs).mergeSort fun a b => decide (a.1 ≤ b.1)).Pairwise fun a b => a.1 ≤ b.1 :=
    fun zs => ascending_mergeSort (fun _ _ _ => String.le_trans) String.le_total (fun f : String × Json => f.1) _
  have hperm : ∀ zs : List (String × Json), ((sortedFields zs).mergeSort fun a b => decide (a.1 ≤ b.1)).Perm
      (zs.map fun f => (f.1, f.2.sorted)) := fun zs => sortedFields_eq zs ▸ List.mergeSort_perm ..
  have hsame := ((hperm xs).trans (h.map _)).trans (hperm ys).symm
  have hinj := List.inj_on_of_nodup_map (f := fun f : String × Json => f.1)
    (l := (sortedFields ys).mergeSort fun a b => decide (a.1 ≤ b.1))
    (((hperm ys).map _).nodup_iff.2 (by simpa [Function.comp_def] using hnames))
  rw [sorted, sorted]
  refine congrArg Document.fields (List.Perm.eq_of_pairwise (fun a b ha hb hab hba => ?_) (hascending xs)
    (hascending ys) hsame)
  exact hinj (hsame.mem_iff.1 ha) hb (String.le_antisymm hab hba)

@[simp] theorem text?_sorted (d : Json) : d.sorted.text? = d.text? := by
  cases d <;> simp [sorted, Document.text?]

@[simp] theorem word?_sorted (d : Json) : d.sorted.word? = d.word? := by
  cases d <;> simp [sorted, Document.word?]

theorem items?_sorted (d : Json) : d.sorted.items? = d.items?.map (·.map sorted) := by
  cases d with
  | scalar s => rfl
  | items xs => simp [sorted, sortedItems_eq, Document.items?]
  | fields xs => rfl

/-! ## Broken parts and depth -/

theorem anyBroken_eq (xs : List Json) : anyBroken xs = xs.any hasBroken := by
  induction xs with
  | nil => rfl
  | cons x xs ih => rw [anyBroken, ih, List.any_cons]

theorem anyBrokenField_eq (xs : List (String × Json)) : anyBrokenField xs = xs.any (hasBroken ·.2) := by
  induction xs with
  | nil => rfl
  | cons x xs ih => rw [anyBrokenField, ih, List.any_cons]

theorem depthOfFields_perm {xs ys : List (String × Json)} (h : xs.Perm ys) : depthOfFields xs = depthOfFields ys := by
  induction h with
  | nil => rfl
  | cons x _ ih => rw [depthOfFields, depthOfFields, ih]
  | swap x y xs => simp only [depthOfFields]; omega
  | trans _ _ ih₁ ih₂ => exact ih₁.trans ih₂

mutual

theorem hasBroken_sorted : (d : Json) → d.sorted.hasBroken = d.hasBroken
  | .scalar _ => rfl
  | .items xs => by
      rw [sorted, hasBroken, hasBroken]
      exact anyBroken_sorted xs
  | .fields xs => by
      obtain ⟨ys, hsorted, hperm⟩ := sorted_fields xs
      rw [hsorted, hasBroken, hasBroken, anyBrokenField_eq, hperm.any_eq, ← sortedFields_eq, ← anyBrokenField_eq]
      exact anyBrokenField_sorted xs

theorem anyBroken_sorted : (xs : List Json) → anyBroken (sortedItems xs) = anyBroken xs
  | [] => rfl
  | x :: xs => by rw [sortedItems, anyBroken, anyBroken, hasBroken_sorted x, anyBroken_sorted xs]

theorem anyBrokenField_sorted : (xs : List (String × Json)) → anyBrokenField (sortedFields xs) = anyBrokenField xs
  | [] => rfl
  | (_, x) :: xs => by
      rw [sortedFields, anyBrokenField, anyBrokenField, hasBroken_sorted x, anyBrokenField_sorted xs]

end

mutual

theorem depth_sorted : (d : Json) → d.sorted.depth = d.depth
  | .scalar _ => rfl
  | .items xs => by rw [sorted, depth, depth, depthOf_sorted xs]
  | .fields xs => by
      obtain ⟨ys, hsorted, hperm⟩ := sorted_fields xs
      rw [hsorted, depth, depth, depthOfFields_perm hperm, ← sortedFields_eq, depthOfFields_sorted xs]

theorem depthOf_sorted : (xs : List Json) → depthOf (sortedItems xs) = depthOf xs
  | [] => rfl
  | x :: xs => by rw [sortedItems, depthOf, depthOf, depth_sorted x, depthOf_sorted xs]

theorem depthOfFields_sorted : (xs : List (String × Json)) → depthOfFields (sortedFields xs) = depthOfFields xs
  | [] => rfl
  | (_, x) :: xs => by rw [sortedFields, depthOfFields, depthOfFields, depth_sorted x, depthOfFields_sorted xs]

end

/-! ## Records -/

/-- A record with the same fields, each in its sorted form, in any order. -/
def Reordered (d sorted : Json) : Prop :=
  ∀ names : List String, sorted.record? names = (d.record? names).map (·.map (·.map Json.sorted))

theorem reordered_of_perm {xs ys : List (String × Json)} (h : ys.Perm (xs.map fun f => (f.1, f.2.sorted))) :
    Reordered (.fields xs) (.fields ys) := by
  intro names
  rw [Document.record?_fields, Document.record?_fields, ← mapM_option_map]
  exact congrArg (names.mapM ·) (funext fun name => (Document.once?_perm h).trans (Document.once?_map sorted))

theorem reordered_items (xs : List Json) : Reordered (.items xs) (.items (xs.map sorted)) := by
  intro names
  simp only [Document.record?, Document.fields?, Document.items?, List.length_map]
  split
  · simp [List.map_replicate]
  · rfl

theorem reordered_sorted (d : Json) : Reordered d d.sorted := by
  cases d with
  | scalar s => intro names; rfl
  | items xs => rw [sorted, sortedItems_eq]; exact reordered_items xs
  | fields xs =>
      obtain ⟨ys, hsorted, hperm⟩ := sorted_fields xs
      exact hsorted ▸ reordered_of_perm hperm

/-- A record with further fields. -/
def withFields (more : List (String × Json)) : Json → Json
  | .fields xs => .fields (xs ++ more)
  | d => d

/-- Fields of other names are not looked at. -/
theorem record?_withFields {names : List String} {more : List (String × Json)} (h : ∀ f ∈ more, f.1 ∉ names)
    (d : Json) : (d.withFields more).record? names = d.record? names := by
  cases d with
  | scalar s => rfl
  | items xs => rfl
  | fields xs =>
      rw [withFields, Document.record?_fields, Document.record?_fields]
      refine mapM_option_congr fun name hname => ?_
      have hmore : more.filter (·.1 == name) = [] := by
        rw [List.filter_eq_nil_iff]
        rintro f hf heq
        exact h f hf (beq_iff_eq.1 heq ▸ hname)
      rw [Document.once?, Document.once?, List.filter_append, hmore, List.append_nil]

/-! ## Lists -/

/-- A list whose items do not depend on the order of fields does not either. -/
theorem list?_sorted {β : Type} {read : Json → Option β} (h : ∀ d : Json, read d.sorted = read d) (d : Json) :
    d.sorted.list? read = d.list? read := by
  rw [Document.list?, items?_sorted, Document.list?]
  cases d.items? with
  | none => rfl
  | some xs =>
      simp only [Option.map_some, Option.bind_eq_bind, Option.bind_some, List.mapM_map]
      exact congrArg (xs.mapM ·) (funext h)

theorem list?_ofList {β : Type} {read : Json → Option β} {write : β → Json} {xs : List β}
    (h : ∀ x ∈ xs, read (write x) = some x) : (ofList write xs).list? read = some xs := by
  simp only [ofList, Document.list?, Document.items?, Option.bind_eq_bind, Option.bind_some, List.mapM_map]
  induction xs with
  | nil => rfl
  | cons x xs ih =>
      rw [List.mapM_cons, Function.comp_apply, h x List.mem_cons_self, ih fun y hy => h y (List.mem_cons_of_mem _ hy)]
      rfl

/-! ## Values -/

/-- No part is broken, and nothing is nested deeper than `k`. -/
structure Within (k : Nat) (d : Json) : Prop where
  unbroken : d.hasBroken = false
  depth_le : d.depth ≤ k

theorem within_ofText (s : String) : Within 0 (ofText s) := ⟨rfl, Nat.le_refl 0⟩

theorem within_ofWord (n : UInt64) : Within 0 (ofWord n) := ⟨rfl, Nat.le_refl 0⟩

theorem Within.mono {k l : Nat} {d : Json} (h : Within k d) (hle : k ≤ l) : Within l d :=
  ⟨h.unbroken, Nat.le_trans h.depth_le hle⟩

theorem depthOf_le {k : Nat} {xs : List Json} (h : ∀ x ∈ xs, x.depth ≤ k) : depthOf xs ≤ k := by
  induction xs with
  | nil => exact Nat.zero_le k
  | cons x xs ih =>
      exact Nat.max_le.2 ⟨h x List.mem_cons_self, ih fun y hy => h y (List.mem_cons_of_mem _ hy)⟩

theorem depthOfFields_le {k : Nat} {xs : List (String × Json)} (h : ∀ f ∈ xs, f.2.depth ≤ k) :
    depthOfFields xs ≤ k := by
  induction xs with
  | nil => exact Nat.zero_le k
  | cons f xs ih =>
      exact Nat.max_le.2 ⟨h f List.mem_cons_self, ih fun y hy => h y (List.mem_cons_of_mem _ hy)⟩

theorem within_ofList {β : Type} {k : Nat} {write : β → Json} (h : ∀ x, Within k (write x)) (xs : List β) :
    Within (k + 1) (ofList write xs) := by
  constructor
  · rw [ofList, hasBroken, anyBroken_eq, List.any_map, List.any_eq_false]
    exact fun x _ => by simp [(h x).unbroken]
  · rw [ofList, depth]
    exact Nat.succ_le_succ (depthOf_le (by simpa using fun x _ => (h x).depth_le))

theorem within_fields {k : Nat} {xs : List (String × Json)} (h : ∀ f ∈ xs, Within k f.2) :
    Within (k + 1) (.fields xs) := by
  constructor
  · rw [hasBroken, anyBrokenField_eq, List.any_eq_false]
    exact fun f hf => by simp [(h f hf).unbroken]
  · rw [depth]
    exact Nat.succ_le_succ (depthOfFields_le fun f hf => (h f hf).depth_le)

end Json

end Backfill
