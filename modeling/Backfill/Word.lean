/-!
# Machine words

Bounds of 64-bit words, and the word nearest to a natural number.
-/

namespace Backfill

/-- The largest 64-bit word. -/
def maxWord : Nat := 18446744073709551615

/-- The largest signed 64-bit word. -/
def maxSigned : Nat := 9223372036854775807

/-- The word nearest to a natural number. -/
def clampWord (n : Nat) : UInt64 := UInt64.ofNat (min n maxWord)

theorem toNat_clampWord (n : Nat) : (clampWord n).toNat = min n maxWord := by
  have : min n maxWord < 2 ^ 64 := by unfold maxWord; omega
  simpa [clampWord] using Nat.mod_eq_of_lt this

end Backfill
