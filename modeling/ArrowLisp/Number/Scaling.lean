import ArrowLisp.Number.Decimal

/-!
Decimals converted in steps. The coefficient is rounded to a double, which is then multiplied or
divided by the double nearest to the power of ten, and every step rounds again. The result is close
to the decimal, but not always the double nearest to it.
-/

namespace ArrowLisp.Number

/-- The product of two doubles. -/
def mulRank (r s : Nat) : Nat := nearestRank (units r * units s) unitsPerOne

/-- The quotient of two doubles. -/
def divRank (r s : Nat) : Nat := nearestRank (units r * unitsPerOne) (units s)

/-- The exponent of the greatest power of ten that has a finite double near it. -/
def maxTenPower : Nat := 308

/-- The double nearest to a power of ten. -/
def tenPowerRank (k : Nat) : Nat := (Decimal.mk 1 k).rank

/-- Divide by `10 ^ last` after some steps that divide by the greatest power of ten. No step changes
a zero, so there the walk ends. -/
def divTenPowers (last : Nat) : Nat → Nat → Nat
  | 0, r => divRank r (tenPowerRank last)
  | steps + 1, r =>
    if r = 0 then 0 else divTenPowers last steps (divRank r (tenPowerRank maxTenPower))

/-- Divide by `10 ^ k`, in as many steps as it takes. -/
def divTenPower (k r : Nat) : Nat :=
  let steps := (k - 1) / maxTenPower
  divTenPowers (k - maxTenPower * steps) steps r

namespace Decimal

/-- The rank that a decimal is converted to, `none` if that is an infinity. -/
def scaledRank? (d : Decimal) : Option Nat :=
  let r := rank ⟨d.coefficient, 0⟩
  if d.exponent < 0 then some (divTenPower (-d.exponent).toNat r)
  else if r = 0 then some 0
  else if maxTenPower < d.exponent then none
  else
    let product := mulRank r (tenPowerRank d.exponent.toNat)
    if product < infinityRank then some product else none

end Decimal

end ArrowLisp.Number
