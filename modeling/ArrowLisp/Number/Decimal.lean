import ArrowLisp.Number.Rank

/-!
Decimal numbers `coefficient * 10 ^ exponent` and the double nearest to each of them.
-/

namespace ArrowLisp.Number

/-- The nonnegative decimal `coefficient * 10 ^ exponent`. -/
structure Decimal where
  coefficient : Nat
  exponent : Int
deriving DecidableEq, Repr

namespace Decimal

/-- The rank of the double nearest to a decimal, an infinity for one beyond the finite doubles.
The first tests settle exponents so far out that no power of ten need be computed: `10 ^ 400`
exceeds every finite double and `10 ^ (-400)` rounds to zero. -/
def rank (d : Decimal) : Nat :=
  if d.coefficient = 0 then 0
  else if 400 < d.exponent then infinityRank
  else if d.exponent + d.coefficient.log2 < -400 then 0
  else if 0 ≤ d.exponent then nearestRank (d.coefficient * Nat.pow 10 d.exponent.toNat * unitsPerOne) 1
  else nearestRank (d.coefficient * unitsPerOne) (Nat.pow 10 (-d.exponent).toNat)

/-- The double nearest to a decimal under a sign, `none` if that is an infinity. -/
def toFloat? (negative : Bool) (d : Decimal) : Option Float :=
  if d.rank < infinityRank then some (ofRank negative d.rank) else none

end Decimal

/-- The double nearest to an integer. -/
def ofInt (i : Int) : Float := ofRank (decide (i < 0)) (Decimal.mk i.natAbs 0).rank

end ArrowLisp.Number
