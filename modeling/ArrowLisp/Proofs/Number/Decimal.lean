import ArrowLisp.Number.Decimal
import ArrowLisp.Proofs.Number.Rank

/-!
The double nearest to a decimal, as the quotient that is rounded. The shortcuts for exponents far
out change nothing among the finite doubles; integers of 64 bits are all near a finite one.
-/

namespace ArrowLisp.Number

theorem unitsPerOne_eq : unitsPerOne = 2 ^ 1074 := by
  -- The power itself is not to be computed.
  generalize h : 1074 = n
  rw [unitsPerOne, h, Nat.one_shiftLeft]

theorem units_infinityRank : units infinityRank = 2 ^ 2098 := by
  have hBinade : InBinade infinityRank 2046 ranksPerBinade := ⟨rfl, .inr le_rfl, by decide⟩
  rw [hBinade.units_eq, show ranksPerBinade = 2 ^ 52 by rfl, ← pow_add]

theorem nearestRank_eq_zero {n d : Nat} (h : 2 * n < d) : nearestRank n d = 0 := by
  have hBelow : rankBelow (n / d) = 0 := by rw [Nat.div_eq_of_lt (by omega)]; decide
  have hMiddle : (units 0 + units (0 + 1)) * d = d := by
    rw [show units 0 + units (0 + 1) = 1 by decide, one_mul]
  simp only [nearestRank, hBelow, hMiddle, if_pos h]

namespace Decimal

variable {d : Decimal} {r : Nat}

/-- The value of a decimal in units of the least positive double, as a fraction. -/
def numerator (d : Decimal) : Nat := d.coefficient * 10 ^ d.exponent.toNat * unitsPerOne

def denominator (d : Decimal) : Nat := 10 ^ (-d.exponent).toNat

/-- The rank nearest to a decimal, however far out its exponent is. -/
def nearest (d : Decimal) : Nat := nearestRank d.numerator d.denominator

theorem denominator_pos (d : Decimal) : 0 < d.denominator := Nat.pow_pos (by decide)

/-- Powers of ten grow faster than those of eight. -/
theorem two_pow_le_ten_pow {a b : Nat} (h : a ≤ 3 * b) : 2 ^ a ≤ 10 ^ b :=
  calc 2 ^ a ≤ 2 ^ (3 * b) := Nat.pow_le_pow_right (by decide) h
    _ = 8 ^ b := pow_mul 2 3 b
    _ ≤ 10 ^ b := Nat.pow_le_pow_left (by decide) b

/-- Beyond `10 ^ 400` there are infinities only. -/
theorem infinityRank_le_nearest (hCoefficient : d.coefficient ≠ 0) (h : 400 < d.exponent) :
    infinityRank ≤ d.nearest := by
  have hPower : 2 ^ 1024 ≤ 10 ^ d.exponent.toNat := two_pow_le_ten_pow (by omega)
  have hOne : d.denominator = 1 := by rw [denominator, Int.toNat_of_nonpos (by omega), pow_zero]
  refine le_nearestRank d.denominator_pos ?_
  calc units infinityRank * d.denominator = 1 * 2 ^ 1024 * 2 ^ 1074 := by
        rw [units_infinityRank, hOne, mul_one, one_mul, ← pow_add]
    _ ≤ d.coefficient * 10 ^ d.exponent.toNat * 2 ^ 1074 :=
        Nat.mul_le_mul_right _ (Nat.mul_le_mul (Nat.pos_of_ne_zero hCoefficient) hPower)
    _ = d.numerator := by rw [numerator, unitsPerOne_eq]

/-- Below half the least positive double, a decimal is rounded to zero. -/
theorem nearest_eq_zero (h : d.exponent + d.coefficient.log2 < -400) : d.nearest = 0 := by
  have hWhole : d.exponent.toNat = 0 := by omega
  apply nearestRank_eq_zero
  calc 2 * d.numerator = 2 * (d.coefficient * 2 ^ 1074) := by
        rw [numerator, unitsPerOne_eq, hWhole, pow_zero, mul_one]
    _ < 2 * (2 ^ (d.coefficient.log2 + 1) * 2 ^ 1074) := by
        have := Nat.mul_lt_mul_of_pos_right (Nat.lt_log2_self (n := d.coefficient))
          (Nat.two_pow_pos 1074)
        omega
    _ = 2 ^ (1 + (d.coefficient.log2 + 1 + 1074)) := by simp only [pow_add, pow_one]
    _ ≤ d.denominator := two_pow_le_ten_pow (by omega)

/-- The first tests for the rank of a decimal change nothing among the finite ranks. -/
theorem min_rank (d : Decimal) : min d.rank infinityRank = min d.nearest infinityRank := by
  unfold rank
  split_ifs with hZero hFar hNear hWhole
  · rw [nearest, numerator, hZero, zero_mul, zero_mul, nearestRank_eq_zero d.denominator_pos]
  · rw [min_self, min_eq_right (infinityRank_le_nearest hZero hFar)]
  · rw [nearest_eq_zero hNear]
  · have hOne : d.denominator = 1 := by rw [denominator, Int.toNat_of_nonpos (by omega), pow_zero]
    rw [nearest, numerator, hOne]
    rfl
  · have hInteger : d.exponent.toNat = 0 := by omega
    rw [nearest, numerator, hInteger, pow_zero, mul_one]
    rfl

theorem rank_eq_iff (h : r < infinityRank) : d.rank = r ↔ d.nearest = r := by
  have hMin := d.min_rank
  omega

theorem rank_lt_iff : d.rank < infinityRank ↔ d.nearest < infinityRank := by
  have hMin := d.min_rank
  omega

/-- A decimal that is rounded to the rank of a double reads as that double under its sign. -/
theorem toFloat?_eq_some {x : Float} (hFinite : x.isFinite = true) (h : d.nearest = Number.rank x) :
    d.toFloat? (isNegative x) = some x := by
  have hRank := isFinite_iff.1 hFinite
  rw [toFloat?, (rank_eq_iff hRank).2 h, if_pos hRank, ofRank_rank hRank.le]

/-- An integer of 64 bits is rounded to a finite double. -/
theorem nearest_lt_infinityRank {c : Nat} (h : c ≤ 2 ^ 64) : nearest ⟨c, 0⟩ < infinityRank := by
  have hBinade : InBinade (1087 * ranksPerBinade) 1086 ranksPerBinade :=
    ⟨rfl, .inr le_rfl, by decide⟩
  refine lt_of_le_of_lt (nearestRank_le (r := 1087 * ranksPerBinade) (denominator_pos _) ?_)
    (by decide)
  calc c * 10 ^ 0 * unitsPerOne ≤ 2 ^ 64 * 10 ^ 0 * unitsPerOne :=
        Nat.mul_le_mul_right _ (Nat.mul_le_mul_right _ h)
    _ = units (1087 * ranksPerBinade) * 10 ^ 0 := by
        rw [hBinade.units_eq, unitsPerOne_eq, show ranksPerBinade = 2 ^ 52 by rfl, pow_zero,
          mul_one, mul_one, ← pow_add, ← pow_add]

end Decimal

theorem isFinite_ofInt {i : Int} (h : i.natAbs ≤ 2 ^ 64) : (ofInt i).isFinite = true :=
  isFinite_ofRank (Decimal.rank_lt_iff.2 (Decimal.nearest_lt_infinityRank h))

end ArrowLisp.Number
