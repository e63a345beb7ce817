/-!
Doubles counted by rank. Below its sign bit, a finite double is a natural number that grows with
its magnitude: its rank. Measured in units of `2 ^ (-1074)`, the least positive double, every
magnitude is a natural number too, so comparing and rounding stay in exact natural arithmetic.
-/

namespace ArrowLisp.Number

/-- The number of ranks from a power of two up to the next one: `2 ^ 52`. -/
def ranksPerBinade : Nat := 0x10000000000000

/-- The sign bit, which is beyond every rank: `2 ^ 63`. -/
def signBit : Nat := 0x8000000000000000

/-- The rank of the infinities. Lower ranks are finite magnitudes, higher ones are not a number. -/
def infinityRank : Nat := 2047 * ranksPerBinade

/-- The magnitude `1` in units of the least positive double. -/
def unitsPerOne : Nat := 1 <<< 1074

/-- The place of `x` in the order of magnitudes: its bits without the sign bit. -/
def rank (x : Float) : Nat := x.toBits.toNat % signBit

/-- Whether the sign bit of `x` is set, which also tells `-0.0` from `0.0`. -/
def isNegative (x : Float) : Bool := decide (signBit ≤ x.toBits.toNat)

/-- The double with a given sign and rank. Ranks beyond the finite ones give an infinity. -/
def ofRank (negative : Bool) (r : Nat) : Float :=
  .ofBits (UInt64.ofNat ((if negative then signBit else 0) + min r infinityRank))

/-- The magnitude of a rank in units of the least positive double. The ranks below
the first binade are one unit apart, and the gap doubles after every binade. -/
def units (r : Nat) : Nat :=
  if r < ranksPerBinade then r
  else (ranksPerBinade + r % ranksPerBinade) <<< (r / ranksPerBinade - 1)

/-- The greatest rank whose magnitude is at most `u` units. -/
def rankBelow (u : Nat) : Nat :=
  let shift := u.log2 - 52
  shift * ranksPerBinade + u >>> shift

/-- The rank nearest to `numerator / denominator` units; halfway between two, the even one. -/
def nearestRank (numerator denominator : Nat) : Nat :=
  let below := rankBelow (numerator / denominator)
  let middle := (units below + units (below + 1)) * denominator
  if 2 * numerator < middle then below
  else if middle < 2 * numerator then below + 1
  else below + below % 2

end ArrowLisp.Number
