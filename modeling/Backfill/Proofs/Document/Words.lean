import Backfill.Document.JsonReader
import Backfill.Document.JsonWriter
import Mathlib.Data.List.TakeWhile

/-!
# Words in JSON

A word is written as its decimal digits, which are read back as that word.
-/

namespace Backfill.Json

/-! ## Digits -/

theorem le_ofDigitChars (cs : List Char) (n : Nat) : n ≤ Nat.ofDigitChars 10 cs n := by
  induction cs generalizing n with
  | nil => exact Nat.le_refl n
  | cons c cs ih =>
      rw [Nat.ofDigitChars_cons]
      exact Nat.le_trans (by omega) (ih _)

/-- Digits that make up a word are all taken. -/
theorem leadingDigits_eq {cs : List Char} {n : Nat} (h : Nat.ofDigitChars 10 cs n ≤ maxWord) :
    leadingDigits n cs = (Nat.ofDigitChars 10 cs n, 0) := by
  induction cs generalizing n with
  | nil => rfl
  | cons c cs ih =>
      have hlonger : n * 10 + (c.toNat - 48) = 10 * n + (c.toNat - '0'.toNat) := by
        rw [Nat.mul_comm]
        rfl
      rw [Nat.ofDigitChars_cons] at h ⊢
      rw [leadingDigits, hlonger, if_pos (Nat.le_trans (le_ofDigitChars cs _) h)]
      exact ih h

theorem head?_toDigits {n : Nat} (h : 0 < n) : (Nat.toDigits 10 n).head? ≠ some '0' := by
  induction n using Nat.strongRecOn with
  | ind n ih =>
      by_cases hlt : n < 10
      · rw [Nat.toDigits_of_lt_base hlt]
        match n, hlt, h with
        | 1, _, _ | 2, _, _ | 3, _, _ | 4, _, _ | 5, _, _ | 6, _, _ | 7, _, _ | 8, _, _ | 9, _, _ => decide
      · obtain ⟨c, cs, hfront⟩ := List.exists_cons_of_ne_nil (Nat.toDigits_ne_nil (n := n / 10) (b := 10))
        have hhead := ih (n / 10) (by omega) (by omega)
        rw [hfront] at hhead
        rw [Nat.toDigits_of_base_le (by decide) (Nat.le_of_not_lt hlt), hfront]
        exact hhead

theorem length_toDigits_le_one {n : Nat} (h : (Nat.toDigits 10 n).head? = some '0') :
    (Nat.toDigits 10 n).length ≤ 1 := by
  cases n with
  | zero => decide
  | succ n => exact absurd h (head?_toDigits (Nat.succ_pos n))

theorem isDigit_of_mem_toDigits {n : Nat} {c : Char} (h : c ∈ Nat.toDigits 10 n) : c.isDigit = true :=
  Nat.isDigit_of_mem_toDigits (by decide) (by decide) h

/-! ## Reading -/

theorem readDigits?_toDigits (n : Nat) : readDigits? (Nat.toDigits 10 n) = some (Nat.toDigits 10 n, []) := by
  have hall : (Nat.toDigits 10 n).takeWhile Char.isDigit = Nat.toDigits 10 n := by
    rw [List.takeWhile_eq_self_iff]
    exact fun c hc => isDigit_of_mem_toDigits hc
  simp [readDigits?, hall, Nat.toDigits_ne_nil]

theorem readNumber?_toDigits (n : UInt64) :
    readNumber? false (Nat.toDigits 10 n.toNat) = some (.word n, []) := by
  have hword : Nat.ofDigitChars 10 (Nat.toDigits 10 n.toNat) 0 ≤ maxWord := by
    rw [Nat.ofDigitChars_ten_toDigits]
    have := n.toNat_lt
    unfold maxWord
    omega
  have hzero : ¬ ((Nat.toDigits 10 n.toNat).length > 1 ∧ (Nat.toDigits 10 n.toNat).head? = some '0') := by
    rintro ⟨hlong, hhead⟩
    have := length_toDigits_le_one hhead
    omega
  have hwhole : wholeNumber false (Nat.toDigits 10 n.toNat) = .word n := by
    simp [wholeNumber, leadingDigits_eq hword, Nat.ofDigitChars_ten_toDigits]
  simp only [readNumber?, readDigits?_toDigits, Option.bind_eq_bind, Option.bind_some, if_neg hzero]
  simp [hwhole]

theorem not_isSpace_of_isDigit {c : Char} (h : c.isDigit = true) : isSpace c = false := by
  rw [Bool.eq_false_iff]
  intro hspace
  simp only [isSpace, Bool.or_eq_true, beq_iff_eq] at hspace
  rcases hspace with ((rfl | rfl) | rfl) | rfl <;> exact absurd h (by decide)

/-- What begins with a digit is read as a number. -/
theorem readValue?_of_isDigit {c : Char} (hc : c.isDigit = true) (cs : List Char) (fuel : Nat) :
    readValue? (fuel + 1) (c :: cs) = (readNumber? false (c :: cs)).map fun (s, r) => (.scalar s, r) := by
  have hspace : skipSpace (c :: cs) = c :: cs := by
    rw [skipSpace, List.dropWhile_cons_of_neg (by simp [not_isSpace_of_isDigit hc])]
  rw [readValue?, hspace]
  split
  case h_1 heq | h_2 heq | h_3 heq | h_4 heq =>
    cases heq
    exact absurd hc (by decide)
  case h_5 => rw [if_pos (by simpa using hc)]

theorem read?_compact_ofWord (n : UInt64) : read? (ofWord n).compact = some (ofWord n) := by
  have hcompact : (ofWord n).compact.toList = Nat.toDigits 10 n.toNat := by
    rw [ofWord, compact, renderScalar, Nat.toString_eq_ofList_toDigits, String.toList_ofList]
  obtain ⟨c, cs, hdigits⟩ := List.exists_cons_of_ne_nil (Nat.toDigits_ne_nil (n := n.toNat) (b := 10))
  have hc : c.isDigit = true := isDigit_of_mem_toDigits (n := n.toNat) (hdigits ▸ List.mem_cons_self)
  have hnumber := readNumber?_toDigits n
  rw [hdigits] at hnumber
  simp only [read?, hcompact, hdigits, readValue?_of_isDigit hc, hnumber, Option.map_some]
  rfl

end Backfill.Json
