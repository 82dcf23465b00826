import Backfill.Process
import Mathlib.Data.Nat.Digits.Defs
import Mathlib.Tactic.Ring

/-!
# Quantities read back

Hexadecimal digits are read as the number that they stand for, in either case, with or without the mark in front and
after any number of zeros, as long as a word can hold that number. Numbers are written as such digits, so they read
back, and the bounds in the call for a query are those of the query.
-/

namespace Backfill.Remote

open Text

variable {c : Char} {cs : List Char} {n : Nat}

/-! ## What digits stand for -/

/-- A hexadecimal digit of either case. -/
def IsHexDigit (c : Char) : Prop := c ∈ "0123456789abcdefABCDEF".toList

instance : DecidablePred IsHexDigit := fun c => inferInstanceAs (Decidable (c ∈ "0123456789abcdefABCDEF".toList))

theorem isHexDigit_of_all (h : cs.all (IsHexDigit ·) = true) : ∀ c ∈ cs, IsHexDigit c := by
  intro c hc
  exact of_decide_eq_true (List.all_eq_true.1 h c hc)

/-- The value of a hexadecimal digit. -/
def hexValue (c : Char) : Nat := "0123456789abcdef".toList.idxOf c.toLower

/-- The number that digits stand for, the last of them for the units. -/
def hexNumber (cs : List Char) : Nat := Nat.ofDigits 16 (cs.reverse.map hexValue)

theorem hexDigit?_eq (h : IsHexDigit c) : hexDigit? c = some (hexValue c) := by
  -- one digit after the other, as deciding the statement for all characters would take too long
  have hall : "0123456789abcdefABCDEF".toList.all (fun c => hexDigit? c == some (hexValue c)) = true := by decide
  exact beq_iff_eq.1 (List.all_eq_true.1 hall c h)

theorem hexNumber_nil : hexNumber [] = 0 := rfl

theorem hexNumber_cons (c : Char) (cs : List Char) :
    hexNumber (c :: cs) = hexValue c * 16 ^ cs.length + hexNumber cs := by
  simp only [hexNumber, List.reverse_cons, List.map_append, List.map_singleton, Nat.ofDigits_append,
    Nat.ofDigits_singleton, List.length_map, List.length_reverse]
  ring

theorem hexNumber_concat (cs : List Char) (c : Char) : hexNumber (cs ++ [c]) = 16 * hexNumber cs + hexValue c := by
  simp only [hexNumber, List.reverse_append, List.reverse_singleton, List.singleton_append, List.map_cons,
    Nat.ofDigits_cons]
  exact Nat.add_comm ..

/-! ## Writing -/

theorem digitChar_of_lt (h : n < 16) : IsHexDigit n.digitChar ∧ hexValue n.digitChar = n := by
  have hall : ∀ n < 16, IsHexDigit n.digitChar ∧ hexValue n.digitChar = n := by decide
  exact hall n h

/-- What is written for a number are digits, and they stand for it. -/
theorem hexNumber_toDigits (n : Nat) :
    (∀ c ∈ Nat.toDigits 16 n, IsHexDigit c) ∧ hexNumber (Nat.toDigits 16 n) = n := by
  induction n using Nat.strongRecOn with
  | ind n ih =>
      by_cases hlt : n < 16
      · obtain ⟨hdigit, hvalue⟩ := digitChar_of_lt hlt
        rw [Nat.toDigits_of_lt_base hlt]
        refine ⟨by simpa using hdigit, ?_⟩
        rw [hexNumber_cons, hvalue, hexNumber_nil]
        simp
      · obtain ⟨hdigits, hnumber⟩ := ih (n / 16) (by omega)
        obtain ⟨hdigit, hvalue⟩ := digitChar_of_lt (Nat.mod_lt n (show 0 < 16 by decide))
        rw [Nat.toDigits_of_base_le (by decide) (Nat.le_of_not_lt hlt)]
        refine ⟨?_, ?_⟩
        · intro c hc
          rcases List.mem_append.1 hc with hc | hc
          · exact hdigits c hc
          · rwa [List.mem_singleton.1 hc]
        · rw [hexNumber_concat, hnumber, hvalue]
          exact Nat.div_add_mod n 16

/-! ## Reading -/

theorem readDigits_eq (hcs : ∀ c ∈ cs, IsHexDigit c) (hn : n ≤ maxWord) :
    readDigits n cs =
      if n * 16 ^ cs.length + hexNumber cs ≤ maxWord then .ok (n * 16 ^ cs.length + hexNumber cs)
      else .error .tooLarge := by
  induction cs generalizing n with
  | nil => simp [readDigits, hexNumber_nil, hn]
  | cons c cs ih =>
      rw [List.forall_mem_cons] at hcs
      -- the digits so far stand for `16 * n + hexValue c`, and the others follow
      have hsplit : n * 16 ^ (c :: cs).length + hexNumber (c :: cs) =
          (16 * n + hexValue c) * 16 ^ cs.length + hexNumber cs := by
        rw [hexNumber_cons, List.length_cons, Nat.pow_succ]
        ring
      rw [readDigits, hexDigit?_eq hcs.1, hsplit]
      by_cases hfits : 16 * n + hexValue c ≤ maxWord
      · simp only [if_pos hfits]
        exact ih hcs.2 hfits
      · have hpow : 0 < 16 ^ cs.length := Nat.pow_pos (by decide)
        have hgrows := Nat.le_mul_of_pos_right (16 * n + hexValue c) hpow
        simp only [if_neg hfits]
        rw [if_neg (by omega)]

theorem readSigned_eq (hne : cs ≠ []) (hcs : ∀ c ∈ cs, IsHexDigit c) : readSigned cs = readDigits 0 cs := by
  unfold readSigned
  split
  · exact absurd rfl hne
  · exact absurd (hcs '+' List.mem_cons_self) (by decide)
  · rfl

theorem strip?_mark_of_digits (hcs : ∀ c ∈ cs, IsHexDigit c) : strip? ['0', 'x'] cs = none := by
  match cs, hcs with
  | [], _ => rfl
  | [c], _ => simp [strip?]
  | c :: d :: cs, hcs =>
      have hd : 'x' ≠ d := by
        rintro rfl
        exact absurd (hcs 'x' (by simp)) (by decide)
      simp [strip?, hd]

theorem unmarked_eq {mark : String} (hmark : mark = "" ∨ mark = "0x") (hcs : ∀ c ∈ cs, IsHexDigit c) :
    (strip? "0x".toList (mark ++ String.ofList cs).toList).getD (mark ++ String.ofList cs).toList = cs := by
  have hlist : (mark ++ String.ofList cs).toList = mark.toList ++ cs := by
    rw [String.toList_append, String.toList_ofList]
  rw [hlist]
  rcases hmark with rfl | rfl
  · exact congrArg (Option.getD · cs) (strip?_mark_of_digits hcs)
  · rfl

theorem readQuantity_eq (operation : String) {mark : String} (hmark : mark = "" ∨ mark = "0x") (hne : cs ≠ [])
    (hcs : ∀ c ∈ cs, IsHexDigit c) :
    readQuantity operation (mark ++ String.ofList cs) =
      if hexNumber cs < 2 ^ 64 then .ok (UInt64.ofNat (hexNumber cs))
      else .error (.invalidResponse operation
        s!"invalid quantity {mark ++ String.ofList cs}: number too large to fit in target type") := by
  have hread := readDigits_eq hcs (Nat.zero_le maxWord)
  rw [Nat.zero_mul, Nat.zero_add, ← readSigned_eq hne hcs] at hread
  rw [readQuantity, unmarked_eq hmark hcs, hread]
  by_cases hfits : hexNumber cs < 2 ^ 64
  · rw [if_pos hfits, if_pos (by unfold maxWord; omega)]
  · rw [if_neg hfits, if_neg (by unfold maxWord; omega)]
    have hdetail : ": " ++ "number too large to fit in target type" = ": number too large to fit in target type" := by
      decide
    simp [QuantityFault.message, String.append_assoc, toString, hdetail]

theorem readQuantity_quantity (operation : String) (n : UInt64) : readQuantity operation (quantity n) = .ok n := by
  obtain ⟨hdigits, hnumber⟩ := hexNumber_toDigits n.toNat
  rw [quantity, readQuantity_eq operation (Or.inr rfl) Nat.toDigits_ne_nil hdigits, hnumber, if_pos n.toNat_lt,
    UInt64.ofNat_toNat]

/-! ## Bounds in calls -/

/-- The range of blocks that the parameters of a call for logs name. -/
def rangeIn? (operation : String) : Json → Option (Range UInt64)
  | .items [params] => do
    let first ← (readQuantity operation (← Json.get params "fromBlock")).toOption
    let last ← (readQuantity operation (← Json.get params "toBlock")).toOption
    return ⟨first, last⟩
  | _ => none

theorem rangeIn?_logsParams (operation : String) (addresses : List String) (range : Range UInt64) :
    rangeIn? operation (logsParams addresses range) = some range := by
  have hread : rangeIn? operation (logsParams addresses range) =
      (readQuantity operation (quantity range.first)).toOption.bind fun first =>
        (readQuantity operation (quantity range.last)).toOption.bind fun last => some ⟨first, last⟩ := rfl
  rw [hread, readQuantity_quantity, readQuantity_quantity]
  rfl

theorem logsParams_eq_iff {addresses others : List String} {range other : Range UInt64} :
    logsParams addresses range = logsParams others other ↔ addresses = others ∧ range = other := by
  refine ⟨fun h => ⟨?_, ?_⟩, fun ⟨haddresses, hrange⟩ => by rw [haddresses, hrange]⟩
  · have htext : ∀ a b, Json.ofText a = Json.ofText b → a = b := fun a b hab => by simpa [Json.ofText] using hab
    simp only [logsParams, Json.ofList, Document.items.injEq, Document.fields.injEq, List.cons.injEq,
      Prod.mk.injEq] at h
    exact (List.map_inj_right htext).1 h.1.1.2
  · have hread := rangeIn?_logsParams "" addresses range
    rw [h, rangeIn?_logsParams] at hread
    exact (Option.some.inj hread).symm

/-- What is written for a number is read as that number. So the calls for a batch name the ranges of its queries, and
other ranges give other parameters. Any digits, with or without the mark, are read as their number if a word can hold
it, and refused if not. -/
theorem quantities_read_back (operation : String) :
    (∀ n, readQuantity operation (quantity n) = .ok n) ∧
    (∀ place batch, (Process.calls (.fetch place batch)).map (fun c => rangeIn? operation c.params) =
      batch.map fun q => some q.range) ∧
    (∀ addresses others range other,
      logsParams addresses range = logsParams others other ↔ addresses = others ∧ range = other) ∧
    ∀ mark digits, mark = "" ∨ mark = "0x" → digits ≠ [] → (∀ c ∈ digits, IsHexDigit c) →
      readQuantity operation (mark ++ String.ofList digits) =
        if hexNumber digits < 2 ^ 64 then .ok (UInt64.ofNat (hexNumber digits))
        else .error (.invalidResponse operation
          s!"invalid quantity {mark ++ String.ofList digits}: number too large to fit in target type") := by
  refine ⟨readQuantity_quantity operation, fun place batch => ?_, fun _ _ _ _ => logsParams_eq_iff,
    fun mark digits hmark => readQuantity_eq operation hmark⟩
  rw [Process.calls, List.map_map]
  exact List.map_congr_left fun q _ => rangeIn?_logsParams operation (q.entities.map (·.address)) q.range

theorem quantities_read_back_manyDigits :
    (∀ c ∈ "00000000000000000001B4".toList, IsHexDigit c) ∧ (∀ c ∈ "10000000000000000".toList, IsHexDigit c) ∧
    readQuantity "eth_blockNumber" "0x00000000000000000001B4" = .ok 436 ∧
    readQuantity "eth_blockNumber" "10000000000000000" = .error (.invalidResponse "eth_blockNumber"
      "invalid quantity 10000000000000000: number too large to fit in target type") := by
  obtain ⟨-, -, -, hread⟩ := quantities_read_back "eth_blockNumber"
  have hzeros : ∀ c ∈ "00000000000000000001B4".toList, IsHexDigit c := isHexDigit_of_all (by decide)
  have hlarge : ∀ c ∈ "10000000000000000".toList, IsHexDigit c := isHexDigit_of_all (by decide)
  refine ⟨hzeros, hlarge, ?_, ?_⟩
  · exact (hread "0x" _ (Or.inr rfl) (by decide) hzeros).trans (if_pos (by decide +kernel))
  · exact (hread "" _ (Or.inl rfl) (by decide) hlarge).trans (if_neg (by decide +kernel))

end Backfill.Remote
