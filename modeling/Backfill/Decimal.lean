import Backfill.Word

/-!
# Decimal texts of binary numbers

A 64-bit binary number is written with the fewest digits that read back as the same number, nearest to
its value, found by exact arithmetic on naturals. Reading is quick rather than exact: the digits and
their power of ten are rounded one after the other.
-/

namespace Backfill.Decimal

/-- A finite non-negative binary number, `m * 2 ^ q`. -/
structure Binary where
  m : Nat
  q : Int
  /-- The gap to the value below is half the gap to the value above. -/
  narrowBelow : Bool

/-- The magnitude that the bits of a finite number stand for. -/
def Binary.ofBits (b : UInt64) : Binary :=
  let e : Nat := b.toNat / Nat.pow 2 52 % Nat.pow 2 11
  let f : Nat := b.toNat % Nat.pow 2 52
  if e = 0 then ⟨f, -1074, false⟩ else ⟨Nat.pow 2 52 + f, (e : Int) - 1075, f == 0 && decide (1 < e)⟩

/-- Compares `a * 10 ^ i` with `n * 2 ^ j`. -/
def compareScaled (a : Nat) (i : Int) (n : Nat) (j : Int) : Ordering :=
  compare (a * Nat.pow 10 i.toNat * Nat.pow 2 (-j).toNat) (n * Nat.pow 2 j.toNat * Nat.pow 10 (-i).toNat)

/-- The reals that round to `x` are an interval, with its ends when `m` is even; does it hold
`digits * 10 ^ e`? -/
def Binary.readsBack (x : Binary) (digits : Nat) (e : Int) : Bool :=
  let low := if x.narrowBelow then 4 * x.m - 1 else 4 * x.m - 2
  let ends := x.m % 2 == 0
  let l := compareScaled digits e low (x.q - 2)
  let h := compareScaled digits e (4 * x.m + 2) (x.q - 2)
  (l == .gt || (ends && l == .eq)) && (h == .lt || (ends && h == .eq))

/-- The least `k` with `x < 10 ^ k`, for `x` above zero. -/
def Binary.scale (x : Binary) : Int :=
  let bits : Int := x.m.log2 + x.q
  let guess : Int := bits * 30103 / 100000
  let fits (k : Int) : Bool := compareScaled 1 k x.m x.q == .gt
  if fits guess then guess else if fits (guess + 1) then guess + 1 else guess + 2

/-- On the grid of `10 ^ e`: the neighbour of `x` that reads back, the nearer of two, the upper one on
a tie. -/
def Binary.onGrid? (x : Binary) (e : Int) : Option Nat :=
  let below := x.m * Nat.pow 2 x.q.toNat * Nat.pow 10 (-e).toNat / (Nat.pow 2 (-x.q).toNat * Nat.pow 10 e.toNat)
  let down := x.readsBack below e
  let up := x.readsBack (below + 1) e
  if down && up then
    some (if compareScaled (2 * below + 1) e (2 * x.m) x.q == .gt then below else below + 1)
  else if down then some below
  else if up then some (below + 1)
  else none

/-- Digits and exponent of the shortest decimal that reads back. -/
def Binary.shortest (x : Binary) : Nat × Int :=
  let k := x.scale
  let found := (List.range 17).findSome? fun n =>
    (x.onGrid? (k - (n + 1 : Nat))).map fun digits => (digits, k - (n + 1 : Nat))
  found.getD (x.m * Nat.pow 2 x.q.toNat, 0)

/-- Drops zeros at the end into the exponent. -/
def stripZeros : Nat → Nat × Int → Nat × Int
  | 0, d => d
  | fuel + 1, (digits, e) =>
    if digits % 10 = 0 ∧ digits ≠ 0 then stripZeros fuel (digits / 10, e + 1) else (digits, e)

/-- Numbers from 10⁻⁴ up to below 10¹⁶ are positional with a fraction of one digit at least; the others
have an exponent. -/
def render (bits : UInt64) : String :=
  let sign := if bits.toNat ≤ maxSigned then "" else "-"
  let x := Binary.ofBits bits
  if bits.toNat / Nat.pow 2 52 % Nat.pow 2 11 = 2047 then
    (if bits.toNat % Nat.pow 2 52 = 0 then sign ++ "inf" else "NaN")
  else if x.m = 0 then sign ++ "0.0"
  else
    let (digits, e) := stripZeros 20 x.shortest
    let ds := Nat.toDigits 10 digits
    let point : Int := ds.length + e
    let text :=
      if point > 16 ∨ point < -3 then
        let rest := ds.drop 1
        String.ofList (ds.take 1) ++ (if rest.isEmpty then "" else "." ++ String.ofList rest) ++
          "e" ++ toString (point - 1)
      else if point ≤ 0 then "0." ++ String.ofList (List.replicate (-point).toNat '0' ++ ds)
      else if e ≥ 0 then String.ofList (ds ++ List.replicate e.toNat '0') ++ ".0"
      else String.ofList (ds.take point.toNat) ++ "." ++ String.ofList (ds.drop point.toNat)
    sign ++ text

/-! ## Reading -/

/-- A power of ten up to `10 ^ 308`. -/
def powerOfTen (k : Nat) : Float := Float.ofScientific 1 false k

/-- The quotient by `10 ^ k`, in steps of at most `10 ^ 308`. -/
def dividedByTens (x : Float) (k : Nat) : Float :=
  if 308 < k then dividedByTens (x / powerOfTen 308) (k - 308) else x / powerOfTen k
termination_by k
decreasing_by omega

/-- The bits of `digits * 10 ^ e`, rounded twice: the digits first, then their product with the power of
ten or their quotient by it. There are none beyond the largest number. -/
def bits? (negative : Bool) (digits : Nat) (e : Int) : Option UInt64 :=
  let x := Float.ofScientific digits false 0
  let scaled : Option Float :=
    if e < 0 then some (dividedByTens x e.natAbs)
    else if digits = 0 then some x
    else if 308 < e then none
    else some (x * powerOfTen e.toNat)
  (scaled.filter (!·.isInf)).map fun y => (if negative then -y else y).toBits

end Backfill.Decimal
