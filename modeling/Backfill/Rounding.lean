/-!
# Rounding to 53 binary digits

Shares of a count are taken in numbers of 53 significant binary digits, where a tie goes to the even
neighbour, and end as the nearest whole number, where a half goes up. All of it is exact arithmetic on
natural numbers.
-/

namespace Backfill.Rounding

/-- The nearest whole number to a quotient; a tie goes to the even one. -/
def nearestEven (n d : Nat) : Nat :=
  let q := n / d
  let r := n % d
  if 2 * r < d then q else if d < 2 * r then q + 1 else q + q % 2

/-- The nearest whole number to a quotient; a half goes up. -/
def nearestUp (n d : Nat) : Nat := (2 * n + d) / (2 * d)

/-- The nearest number of 53 significant binary digits. -/
def significant (n : Nat) : Nat :=
  let shift := n.log2 + 1 - 53
  nearestEven n (Nat.pow 2 shift) * Nat.pow 2 shift

/-- The whole number nearest to the quotient's 53 significant binary digits. -/
def quotient (n d : Nat) : Nat :=
  if n = 0 then 0
  else
    let guess : Int := 52 + d.log2 - n.log2
    let scaled (e : Int) : Nat := n * Nat.pow 2 e.toNat / (d * Nat.pow 2 (-e).toNat)
    let e := if scaled guess < Nat.pow 2 52 then guess + 1 else guess
    let digits := nearestEven (n * Nat.pow 2 e.toNat) (d * Nat.pow 2 (-e).toNat)
    if e ≤ 0 then digits * Nat.pow 2 (-e).toNat else nearestUp digits (Nat.pow 2 e.toNat)

/-- The part of `count` that belongs to `part` of `whole`, each step in 53 binary digits. -/
def share (count part whole : Nat) : Nat :=
  quotient (significant (significant count * significant part)) (significant whole)

end Backfill.Rounding
