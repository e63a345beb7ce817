import ArrowLisp.Number.Scaling
import ArrowLisp.Proofs.Number.Value

/-!
Decimals that are converted in steps. The result is always a finite double close to the decimal, and
it is the double nearest to the decimal if coefficient and power of ten are doubles themselves,
since there is only one rounding then.
-/

namespace ArrowLisp.Number

variable {r s c k n m : Nat} {d : Decimal}

namespace Decimal

/-- For an exponent that is not far out, no shortcut is taken. -/
theorem rank_eq_nearest (hLow : 0 ≤ d.exponent) (hHigh : d.exponent ≤ 400) :
    d.rank = d.nearest := by
  unfold rank
  split_ifs with hZero hFar hNear
  · exact (nearest_of_coefficient_eq_zero hZero).symm
  · omega
  · omega
  · have hOne : d.denominator = 1 := by rw [denominator, Int.toNat_of_nonpos (by omega), pow_zero]
    rw [nearest, numerator, hOne]
    rfl

end Decimal

theorem divTenPower_of_le (h : k ≤ maxTenPower) : divTenPower k r = divRank r (tenPowerRank k) := by
  have hSteps : (k - 1) / maxTenPower = 0 :=
    Nat.div_eq_of_lt (by simp only [maxTenPower] at *; omega)
  simp [divTenPower, divTenPowers, hSteps]

theorem scaledRank?_of_neg (h : d.exponent < 0) :
    d.scaledRank? = some (divTenPower (-d.exponent).toNat (Decimal.rank ⟨d.coefficient, 0⟩)) :=
  if_pos h

theorem scaledRank?_of_nonneg (hPower : k ≤ maxTenPower)
    (h : mulRank (Decimal.rank ⟨c, 0⟩) (tenPowerRank k) < infinityRank) :
    Decimal.scaledRank? ⟨c, k⟩ = some (mulRank (Decimal.rank ⟨c, 0⟩) (tenPowerRank k)) := by
  have hNear : ¬(maxTenPower : Int) < k := by omega
  simp only [Decimal.scaledRank?, Int.toNat_natCast, if_pos h, if_neg hNear,
    if_neg (Int.natCast_nonneg k).not_gt, ite_eq_right_iff]
  intro hZero
  rw [hZero, mulRank, show units 0 = 0 by rfl, Nat.zero_mul, nearestRank_eq_zero]
  exact Nat.cast_pos.1 unitsPerOne_pos

section Exact

/-- A number of at most 53 bits times a power of two is the magnitude of a double. -/
theorem exists_units_eq (h : c ≤ 2 ^ 53) (m : Nat) : ∃ r, units r = c * 2 ^ m := by
  obtain rfl | hLess := h.eq_or_lt
  · exact ⟨(m + 1) * ranksPerBinade + ranksPerBinade,
      by rw [InBinade.units_eq ⟨rfl, .inr le_rfl, by decide⟩, show ranksPerBinade = 2 ^ 52 by rfl,
        ← pow_add, ← pow_add, show 52 + (m + 1) = 53 + m by omega]⟩
  · refine ⟨rankBelow (c * 2 ^ m), ?_⟩
    have hShift : (c * 2 ^ m).log2 - 52 ≤ m := by
      obtain rfl | hPos := Nat.eq_zero_or_pos c
      · simp
      · have hBits : c * 2 ^ m < 2 ^ (53 + m) := by
          rw [pow_add]
          exact Nat.mul_lt_mul_of_pos_right hLess (Nat.two_pow_pos m)
        have := (Nat.log2_lt (Nat.mul_pos hPos (Nat.two_pow_pos m)).ne').2 hBits
        omega
    rw [(inBinade_rankBelow _).units_eq]
    exact Nat.div_mul_cancel (Dvd.dvd.mul_left (pow_dvd_pow 2 hShift) c)

/-- An integer of at most 53 bits times a power of two is a double, and rounding leaves it alone. -/
theorem units_rank (hLow : 0 ≤ d.exponent) (hHigh : d.exponent ≤ 400) (hBits : c ≤ 2 ^ 53)
    (h : d.coefficient * 10 ^ d.exponent.toNat = c * 2 ^ m) :
    units d.rank = d.coefficient * 10 ^ d.exponent.toNat * unitsPerOne := by
  obtain ⟨r, hUnits⟩ := exists_units_eq hBits (m + 1074)
  have hOne : d.denominator = 1 := by
    rw [Decimal.denominator, Int.toNat_of_nonpos (by omega), pow_zero]
  have hNumerator : d.numerator = units r * d.denominator := by
    rw [hUnits, hOne, mul_one, Decimal.numerator, h, unitsPerOne_eq, pow_add, mul_assoc]
  rw [Decimal.rank_eq_nearest hLow hHigh, Decimal.nearest, hNumerator,
    nearestRank_units d.denominator_pos, ← mul_one (units r), ← hOne, ← hNumerator,
    Decimal.numerator]

theorem units_coefficient (h : c ≤ 2 ^ 53) : units (Decimal.rank ⟨c, 0⟩) = c * unitsPerOne := by
  simpa using units_rank (d := ⟨c, 0⟩) (m := 0) le_rfl (Int.natCast_nonneg 400) h (by simp)

/-- The powers of ten up to `10 ^ 22` are doubles, as those of five have at most 53 bits. -/
theorem units_tenPowerRank (h : k ≤ 22) : units (tenPowerRank k) = 10 ^ k * unitsPerOne := by
  have hBits : 5 ^ k ≤ 2 ^ 53 := (Nat.pow_le_pow_right (by decide) h).trans (by decide)
  have hPower : (10 : Nat) ^ k = 5 ^ k * 2 ^ k := by rw [← Nat.mul_pow]
  simpa [tenPowerRank] using units_rank (d := ⟨1, k⟩) (m := k) (Int.natCast_nonneg k)
    (by simp; omega) hBits (by simp [hPower])

theorem mulRank_eq_nearest (hCoefficient : units r = c * unitsPerOne)
    (hPower : units s = 10 ^ k * unitsPerOne) : mulRank r s = Decimal.nearest ⟨c, k⟩ := by
  have hUnits : 0 < unitsPerOne := Nat.cast_pos.1 unitsPerOne_pos
  have hProduct : units r * units s = unitsPerOne * (c * 10 ^ k * unitsPerOne) := by
    rw [hCoefficient, hPower]
    ring
  calc mulRank r s = nearestRank (unitsPerOne * (c * 10 ^ k * unitsPerOne)) (unitsPerOne * 1) := by
        rw [mulRank, hProduct, Nat.mul_one]
    _ = nearestRank (c * 10 ^ k * unitsPerOne) 1 := nearestRank_mul_left _ hUnits
    _ = Decimal.nearest ⟨c, k⟩ := by
        simp [Decimal.nearest, Decimal.numerator, Decimal.denominator]

theorem divRank_eq_nearest (hCoefficient : units r = c * unitsPerOne)
    (hPower : units s = 10 ^ k * unitsPerOne) : divRank r s = Decimal.nearest ⟨c, -k⟩ := by
  have hUnits : 0 < unitsPerOne := Nat.cast_pos.1 unitsPerOne_pos
  rw [divRank, hCoefficient, hPower, Nat.mul_comm (10 ^ k), Nat.mul_comm _ unitsPerOne,
    nearestRank_mul_left _ hUnits]
  simp [Decimal.nearest, Decimal.numerator, Decimal.denominator]

/-- If coefficient and power of ten are doubles, the only rounding is that of the result. -/
theorem scaledRank?_eq_nearest {e : Int} (hCoefficient : c ≤ 2 ^ 53) (hExponent : e.natAbs ≤ 22)
    (hFinite : Decimal.nearest ⟨c, e⟩ < infinityRank) :
    Decimal.scaledRank? ⟨c, e⟩ = some (Decimal.nearest ⟨c, e⟩) := by
  have hUnits := units_coefficient hCoefficient
  by_cases hNegative : e < 0
  · obtain ⟨k, rfl⟩ : ∃ k : Nat, e = -k := ⟨e.natAbs, by omega⟩
    rw [scaledRank?_of_neg hNegative]
    simp only [neg_neg, Int.toNat_natCast]
    rw [divTenPower_of_le (by simp only [maxTenPower]; omega),
      divRank_eq_nearest hUnits (units_tenPowerRank (by omega))]
  · obtain ⟨k, rfl⟩ : ∃ k : Nat, e = k := ⟨e.natAbs, by omega⟩
    have hProduct := mulRank_eq_nearest hUnits (units_tenPowerRank (k := k) (by omega))
    rw [scaledRank?_of_nonneg (by simp only [maxTenPower]; omega) (by rwa [hProduct]), hProduct]

end Exact

section Finite

theorem unitsPerOne_le_units_tenPowerRank (h : k ≤ maxTenPower) :
    unitsPerOne ≤ units (tenPowerRank k) := by
  have hOne : units (Decimal.rank ⟨1, 0⟩) = unitsPerOne := by
    rw [units_coefficient (by decide), Nat.one_mul]
  have hPower : Decimal.rank ⟨1, 0⟩ ≤ tenPowerRank k := by
    rw [tenPowerRank, Decimal.rank_eq_nearest le_rfl (Int.natCast_nonneg 400),
      Decimal.rank_eq_nearest (Int.natCast_nonneg k) (by simp only [maxTenPower] at h; simp; omega)]
    refine Decimal.nearest_mono ?_
    rw [Decimal.toRat, Decimal.toRat]
    exact mul_le_mul_of_nonneg_left (ten_zpow_le (Int.natCast_nonneg k)) (Nat.cast_nonneg 1)
  exact hOne.ge.trans (units_strictMono.monotone hPower)

theorem divRank_le (h : unitsPerOne ≤ units s) : divRank r s ≤ r :=
  nearestRank_le ((Nat.cast_pos.1 unitsPerOne_pos).trans_le h) (Nat.mul_le_mul_left _ h)

theorem divTenPowers_le {last : Nat} (h : last ≤ maxTenPower) (steps r : Nat) :
    divTenPowers last steps r ≤ r := by
  induction steps generalizing r with
  | zero => exact divRank_le (unitsPerOne_le_units_tenPowerRank h)
  | succ steps ih =>
      rw [divTenPowers]
      split_ifs with hZero
      · exact Nat.zero_le r
      · exact (ih _).trans (divRank_le (unitsPerOne_le_units_tenPowerRank le_rfl))

theorem divTenPower_le (k r : Nat) : divTenPower k r ≤ r :=
  divTenPowers_le (by simp only [maxTenPower]; omega) _ _

theorem scaledRank?_of_coefficient_eq_zero (h : d.coefficient = 0) : d.scaledRank? = some 0 := by
  have hZero : Decimal.rank ⟨d.coefficient, 0⟩ = 0 := if_pos h
  simp only [Decimal.scaledRank?, hZero, if_true]
  split_ifs
  · exact congrArg some (Nat.le_zero.1 (divTenPower_le _ 0))
  · rfl

/-- No infinity comes out of the conversion of a coefficient of 64 bits. -/
theorem lt_infinityRank_of_scaledRank? (hCoefficient : d.coefficient ≤ 2 ^ 64)
    (h : d.scaledRank? = some r) : r < infinityRank := by
  have hRank : Decimal.rank ⟨d.coefficient, 0⟩ < infinityRank :=
    Decimal.rank_lt_iff.2 (Decimal.nearest_lt_infinityRank hCoefficient)
  simp only [Decimal.scaledRank?] at h
  split_ifs at h with hNegative hZero hFar hFinite <;> cases h
  · exact (divTenPower_le _ _).trans_lt hRank
  · decide
  · exact hFinite

end Finite

section Closeness

variable {a b p q ε δ η θ : ℚ}

/-- One number differs from another by at most the part `ε` of the latter, and `η` beyond that. -/
def Close (ε η a b : ℚ) : Prop := |a - b| ≤ ε * b + η

namespace Close

theorem trans (h : Close ε η a b) (hNext : Close δ θ b q) (hPos : 0 ≤ ε) :
    Close (ε + δ + ε * δ) (η + (1 + ε) * θ) a q := by
  have hBound : b ≤ q + (δ * q + θ) := by
    linarith [le_abs_self (b - q), show |b - q| ≤ _ from hNext]
  have hScaled := mul_le_mul_of_nonneg_left hBound hPos
  have hSum := abs_sub_le a b q
  simp only [Close] at h hNext ⊢
  linarith

theorem mul (h : Close ε 0 a b) (hRight : Close δ 0 p q) (hLeft : 0 ≤ b) (hNonneg : 0 ≤ q) :
    Close (ε + δ + ε * δ) 0 (a * p) (b * q) := by
  simp only [Close, add_zero] at h hRight ⊢
  have hFactor : |p| ≤ (1 + δ) * q := by
    have := abs_sub_abs_le_abs_sub p q
    rw [abs_of_nonneg hNonneg] at this
    linarith
  calc |a * p - b * q| = |(a - b) * p + b * (p - q)| := by ring_nf
    _ ≤ |a - b| * |p| + b * |p - q| := by
        refine (abs_add_le _ _).trans_eq ?_
        rw [abs_mul, abs_mul, abs_of_nonneg hLeft]
    _ ≤ ε * b * ((1 + δ) * q) + b * (δ * q) :=
        add_le_add (mul_le_mul h hFactor (abs_nonneg p) ((abs_nonneg _).trans h))
          (mul_le_mul_of_nonneg_left hRight hLeft)
    _ = (ε + δ + ε * δ) * (b * q) := by ring

theorem div (h : Close ε η a b) (hRight : Close δ 0 p q) (hLeft : 0 ≤ b) (hPos : 0 < q)
    (hSmall : δ < 1) :
    Close ((ε + δ) / (1 - δ)) (η / ((1 - δ) * q)) (a / p) (b / q) := by
  simp only [Close, add_zero] at h hRight ⊢
  have hDivisor : (1 - δ) * q ≤ p := by linarith [neg_abs_le (p - q)]
  have hLow : 0 < (1 - δ) * q := mul_pos (sub_pos.2 hSmall) hPos
  have hp : 0 < p := hLow.trans_le hDivisor
  have hError : |a * q - b * p| ≤ (ε * b + η + b * δ) * q := by
    calc |a * q - b * p| = |(a - b) * q - b * (p - q)| := by ring_nf
      _ ≤ |a - b| * q + b * |p - q| := by
          refine (abs_sub _ _).trans_eq ?_
          rw [abs_mul, abs_mul, abs_of_pos hPos, abs_of_nonneg hLeft]
      _ ≤ (ε * b + η) * q + b * (δ * q) :=
          add_le_add (mul_le_mul_of_nonneg_right h hPos.le) (mul_le_mul_of_nonneg_left hRight hLeft)
      _ = (ε * b + η + b * δ) * q := by ring
  have hNumerator : 0 ≤ ε * b + η + b * δ :=
    nonneg_of_mul_nonneg_left ((abs_nonneg _).trans hError) hPos
  calc |a / p - b / q| = |a * q - b * p| / (p * q) := by
        rw [div_sub_div _ _ hp.ne' hPos.ne', abs_div, abs_of_pos (mul_pos hp hPos), mul_comm p b]
    _ ≤ (ε * b + η + b * δ) * q / (p * q) := by gcongr
    _ = (ε * b + η + b * δ) / p := mul_div_mul_right _ _ hPos.ne'
    _ ≤ (ε * b + η + b * δ) / ((1 - δ) * q) := div_le_div_of_nonneg_left hNumerator hLow hDivisor
    _ = (ε + δ) / (1 - δ) * (b / q) + η / ((1 - δ) * q) := by
        have := sub_pos.2 hSmall
        field_simp
        ring

theorem mono (h : Close ε η a b) (hNonneg : 0 ≤ b) (hPart : ε ≤ δ) (hRest : η ≤ θ) :
    Close δ θ a b :=
  le_trans h (add_le_add (mul_le_mul_of_nonneg_right hPart hNonneg) hRest)

end Close

/-- The part of a number that rounding to 53 bits changes at most. -/
def roundoff : ℚ := 1 / 2 ^ 53

theorem close_nearestRank (hDenominator : 0 < m) (h : ranksPerBinade * m ≤ n) :
    Close roundoff 0 (magnitude (nearestRank n m)) (n / (m * unitsPerOne)) := by
  have hDist : (2 ^ 53 : ℚ) * (Nat.dist n (units (nearestRank n m) * m) : ℕ) ≤ n := by
    exact_mod_cast dist_nearestRank_le_of_le hDenominator h
  have hScale : (0 : ℚ) < m * unitsPerOne := mul_pos (Nat.cast_pos.2 hDenominator) unitsPerOne_pos
  rw [Close, abs_sub_comm, abs_div_sub_magnitude hDenominator, add_zero, roundoff, ← mul_div_assoc]
  refine div_le_div_of_nonneg_right ?_ hScale.le
  linarith

/-- Where doubles are one least double apart, half of that is added. -/
theorem close_nearestRank_add (hDenominator : 0 < m) :
    Close roundoff (magnitude 1 / 2) (magnitude (nearestRank n m)) (n / (m * unitsPerOne)) := by
  have hScale : (0 : ℚ) < m * unitsPerOne := mul_pos (Nat.cast_pos.2 hDenominator) unitsPerOne_pos
  have hLeast : 0 ≤ magnitude 1 / 2 := div_nonneg (magnitude_nonneg 1) zero_le_two
  have hValue : (0 : ℚ) ≤ n / (m * unitsPerOne) := div_nonneg (Nat.cast_nonneg n) hScale.le
  obtain hHigh | hLow := Nat.lt_or_ge n (ranksPerBinade * m)
  · have hDist : (2 : ℚ) * (Nat.dist n (units (nearestRank n m) * m) : ℕ) ≤ m := by
      exact_mod_cast dist_nearestRank_le_of_lt hDenominator hHigh
    have hHalf : magnitude 1 / 2 = m / 2 / (m * unitsPerOne) := by
      have hPos : (0 : ℚ) < m := Nat.cast_pos.2 hDenominator
      have hUnits := unitsPerOne_pos
      rw [magnitude, show units 1 = 1 by rfl]
      field_simp
      norm_num
    rw [Close, abs_sub_comm, abs_div_sub_magnitude hDenominator]
    refine le_add_of_nonneg_of_le (mul_nonneg (by norm_num [roundoff]) hValue) ?_
    rw [hHalf]
    refine div_le_div_of_nonneg_right ?_ hScale.le
    linarith
  · exact (close_nearestRank hDenominator hLow).mono hValue le_rfl hLeast

theorem close_nearest (d : Decimal) :
    Close roundoff (magnitude 1 / 2) (magnitude d.nearest) d.toRat := by
  rw [Decimal.toRat_eq_div]
  exact close_nearestRank_add d.denominator_pos

/-- An integer that is rounded, such as a coefficient or a power of ten. -/
theorem close_rank (hCoefficient : d.coefficient ≠ 0) (hLow : 0 ≤ d.exponent)
    (hHigh : d.exponent ≤ 400) : Close roundoff 0 (magnitude d.rank) d.toRat := by
  have hOne : d.denominator = 1 := by
    rw [Decimal.denominator, Int.toNat_of_nonpos (by omega), pow_zero]
  have hUnits : ranksPerBinade ≤ unitsPerOne := by
    rw [unitsPerOne_eq, show ranksPerBinade = 2 ^ 52 by rfl]
    gcongr <;> decide
  rw [Decimal.rank_eq_nearest hLow hHigh, Decimal.toRat_eq_div]
  refine close_nearestRank d.denominator_pos ?_
  rw [hOne, mul_one, Decimal.numerator]
  exact hUnits.trans (Nat.le_mul_of_pos_left _
    (Nat.mul_pos (Nat.pos_of_ne_zero hCoefficient) (Nat.pow_pos (by decide))))

theorem close_coefficient (h : c ≠ 0) : Close roundoff 0 (magnitude (Decimal.rank ⟨c, 0⟩)) c := by
  simpa [Decimal.toRat] using close_rank (d := ⟨c, 0⟩) h le_rfl (Int.natCast_nonneg 400)

theorem rank_coefficient_ne_zero (h : c ≠ 0) : Decimal.rank ⟨c, 0⟩ ≠ 0 := by
  intro hZero
  have hPos : (0 : ℚ) < c := Nat.cast_pos.2 (Nat.pos_of_ne_zero h)
  have hClose := close_coefficient h
  rw [hZero, Close, magnitude, show units 0 = 0 by rfl, Nat.cast_zero, zero_div, zero_sub, abs_neg,
    abs_of_pos hPos, roundoff] at hClose
  linarith

theorem close_tenPowerRank (h : k ≤ maxTenPower) :
    Close roundoff 0 (magnitude (tenPowerRank k)) (10 ^ k) := by
  have hHigh : (k : Int) ≤ 400 := by simp only [maxTenPower] at h; omega
  simpa [Decimal.toRat, tenPowerRank] using
    close_rank (d := ⟨1, k⟩) Nat.one_ne_zero (Int.natCast_nonneg k) hHigh

theorem close_mulRank (r s : Nat) :
    Close roundoff (magnitude 1 / 2) (magnitude (mulRank r s)) (magnitude r * magnitude s) := by
  have hValue : magnitude r * magnitude s =
      (units r * units s : Nat) / (unitsPerOne * unitsPerOne) := by
    rw [magnitude, magnitude, div_mul_div_comm]
    push_cast
    rfl
  rw [hValue]
  exact close_nearestRank_add (Nat.cast_pos.1 unitsPerOne_pos)

theorem close_divRank (hDivisor : 0 < units s) :
    Close roundoff (magnitude 1 / 2) (magnitude (divRank r s)) (magnitude r / magnitude s) := by
  have hUnits := unitsPerOne_pos
  have hPos : (0 : ℚ) < units s := Nat.cast_pos.2 hDivisor
  have hValue : magnitude r / magnitude s =
      (units r * unitsPerOne : Nat) / (units s * unitsPerOne) := by
    rw [magnitude, magnitude]
    push_cast
    field_simp
  rw [hValue]
  exact close_nearestRank_add hDivisor

theorem toRat_neg (c k : Nat) : Decimal.toRat ⟨c, -k⟩ = c / 10 ^ k := by
  rw [Decimal.toRat, zpow_neg, zpow_natCast, div_eq_mul_inv]

/-- Multiplying by a power of ten takes three roundings. -/
theorem close_mulRank_tenPowerRank (hCoefficient : c ≠ 0) (hPower : k ≤ maxTenPower) :
    Close (6 * roundoff) (magnitude 1)
      (magnitude (mulRank (Decimal.rank ⟨c, 0⟩) (tenPowerRank k))) (Decimal.toRat ⟨c, k⟩) := by
  have hPowerPos : (0 : ℚ) ≤ 10 ^ k := by positivity
  have hFactors := (close_coefficient hCoefficient).mul (close_tenPowerRank hPower)
    (Nat.cast_nonneg c) hPowerPos
  have hLeast := magnitude_nonneg 1
  have hProduct := (close_mulRank _ _).trans hFactors (by norm_num [roundoff])
  rw [Decimal.toRat, zpow_natCast]
  exact hProduct.mono (mul_nonneg (Nat.cast_nonneg c) hPowerPos) (by norm_num [roundoff])
    (by linarith)

/-- Dividing by a power of ten adds the roundings of the power and of the quotient. -/
theorem close_divRank_tenPowerRank {count : ℚ} (hFew : count ≤ 4)
    (h : Close (count * roundoff) η (magnitude r) b) (hNonneg : 0 ≤ b) (hRest : 0 ≤ η)
    (hPos : 0 < k) (hPower : k ≤ maxTenPower) :
    Close ((count + 5 / 2) * roundoff) (magnitude 1 / 2 + η)
      (magnitude (divRank r (tenPowerRank k))) (b / 10 ^ k) := by
  have hDivisor : 0 < units (tenPowerRank k) :=
    (Nat.cast_pos.1 unitsPerOne_pos).trans_le (unitsPerOne_le_units_tenPowerRank hPower)
  have hTen : (10 : ℚ) ≤ 10 ^ k := by
    exact_mod_cast Nat.pow_le_pow_right (n := 10) (by decide) hPos
  have hQuotient := h.div (close_tenPowerRank hPower) hNonneg (by positivity)
    (by norm_num [roundoff])
  have hRounded := (close_divRank (r := r) hDivisor).trans hQuotient (by norm_num [roundoff])
  refine hRounded.mono (div_nonneg hNonneg (by positivity)) ?_ ?_
  · unfold roundoff
    norm_num
    linarith
  · -- The division makes what has been added smaller than it was.
    have hFactor : 1 + roundoff ≤ (1 - roundoff) * 10 ^ k :=
      le_trans (by norm_num [roundoff] : 1 + roundoff ≤ (1 - roundoff) * 10)
        (mul_le_mul_of_nonneg_left hTen (by norm_num [roundoff]))
    have hShare : (1 + roundoff) * (η / ((1 - roundoff) * 10 ^ k)) ≤ η := by
      rw [← mul_div_assoc, div_le_iff₀ (mul_pos (by norm_num [roundoff]) (by positivity)), mul_comm]
      exact mul_le_mul_of_nonneg_left hFactor hRest
    linarith

theorem divTenPower_of_lt (hLow : maxTenPower < k) (hHigh : k ≤ 2 * maxTenPower) :
    divTenPower k r =
      divRank (divRank r (tenPowerRank maxTenPower)) (tenPowerRank (k - maxTenPower)) := by
  have hSteps : (k - 1) / maxTenPower = 1 := by simp only [maxTenPower] at *; omega
  simp only [divTenPower, hSteps, divTenPowers, Nat.mul_one, ite_eq_right_iff]
  rintro rfl
  have hZero : ∀ i ≤ maxTenPower, divRank 0 (tenPowerRank i) = 0 := fun i hPower =>
    Nat.le_zero.1 (divRank_le (unitsPerOne_le_units_tenPowerRank hPower))
  rw [hZero _ le_rfl, hZero _ (by omega)]

/-- Dividing by a power of ten takes five roundings, where one step does not suffice. -/
theorem close_divTenPower (hCoefficient : c ≠ 0) (hPos : 0 < k) (hPower : k ≤ 2 * maxTenPower) :
    Close (6 * roundoff) (magnitude 1) (magnitude (divTenPower k (Decimal.rank ⟨c, 0⟩)))
      (Decimal.toRat ⟨c, -k⟩) := by
  have hLeast := magnitude_nonneg 1
  have hCount : (0 : ℚ) ≤ c := Nat.cast_nonneg c
  have hRounded : Close (1 * roundoff) 0 (magnitude (Decimal.rank ⟨c, 0⟩)) c := by
    rw [one_mul]
    exact close_coefficient hCoefficient
  rw [toRat_neg]
  obtain hOnce | hTwice := le_or_gt k maxTenPower
  · rw [divTenPower_of_le hOnce]
    refine (close_divRank_tenPowerRank (by norm_num) hRounded hCount le_rfl hPos
      hOnce).mono (div_nonneg hCount (by positivity)) (by norm_num [roundoff]) (by linarith)
  · have hFirst := close_divRank_tenPowerRank (by norm_num) hRounded hCount le_rfl
      (by decide) (le_refl maxTenPower)
    have hQuotient : (0 : ℚ) ≤ c / 10 ^ maxTenPower := div_nonneg hCount (by positivity)
    have hSecond := close_divRank_tenPowerRank (k := k - maxTenPower) (by norm_num)
      hFirst hQuotient (by linarith) (by omega) (by omega)
    have hValue : (c / 10 ^ k : ℚ) = c / 10 ^ maxTenPower / 10 ^ (k - maxTenPower) := by
      rw [div_div, ← pow_add, Nat.add_sub_cancel' hTwice.le]
    rw [divTenPower_of_lt hTwice hPower, hValue]
    exact hSecond.mono (div_nonneg hQuotient (by positivity)) (by norm_num [roundoff])
      (by linarith)

/-- The conversion of a decimal is close to it. -/
theorem close_of_scaledRank? (hCoefficient : d.coefficient ≠ 0)
    (hExponent : -(2 * maxTenPower : Int) ≤ d.exponent) (h : d.scaledRank? = some r) :
    Close (6 * roundoff) (magnitude 1) (magnitude r) d.toRat := by
  obtain ⟨c, e⟩ := d
  by_cases hNegative : e < 0
  · obtain ⟨k, rfl⟩ : ∃ k : Nat, e = -k := ⟨e.natAbs, by omega⟩
    rw [scaledRank?_of_neg hNegative] at h
    simp only [neg_neg, Int.toNat_natCast] at h
    cases h
    exact close_divTenPower hCoefficient (by omega) (by simp only at hExponent; omega)
  · obtain ⟨k, rfl⟩ : ∃ k : Nat, e = k := ⟨e.natAbs, by omega⟩
    simp only [Decimal.scaledRank?, Int.toNat_natCast, if_neg hNegative,
      if_neg (rank_coefficient_ne_zero hCoefficient)] at h
    split_ifs at h
    cases h
    exact close_mulRank_tenPowerRank hCoefficient (by omega)

/-- The conversion of a decimal is close to the double nearest to it. -/
theorem abs_magnitude_sub_nearest_le (hCoefficient : d.coefficient ≠ 0)
    (hExponent : -(2 * maxTenPower : Int) ≤ d.exponent) (h : d.scaledRank? = some r) :
    |magnitude r - magnitude d.nearest| ≤ magnitude d.nearest / 2 ^ 50 + magnitude 2 := by
  have hScaled := close_of_scaledRank? hCoefficient hExponent h
  have hNearest := close_nearest d
  have hSum := abs_sub_le (magnitude r) d.toRat (magnitude d.nearest)
  have hLow := neg_abs_le (magnitude d.nearest - d.toRat)
  have hTwo : magnitude 2 = 2 * magnitude 1 := by
    rw [magnitude, magnitude, show units 2 = 2 * units 1 by rfl]
    push_cast
    ring
  rw [abs_sub_comm d.toRat] at hSum
  rw [Close, roundoff] at hScaled hNearest
  norm_num at hScaled hNearest ⊢
  linarith [magnitude_nonneg 1, magnitude_nonneg d.nearest]

end Closeness

section Overflow

/-- The finite doubles of the last binade are evenly spaced up to the infinities. -/
theorem exists_magnitude_eq : ∃ gap : ℚ, 0 < gap ∧
    ∀ j, 0 < j → j ≤ ranksPerBinade → magnitude (infinityRank - j) = (2 ^ 53 - j) * gap := by
  -- The power of two is not to be computed.
  obtain ⟨binade, hBinade⟩ : ∃ s : Nat, s = 2045 := exists_eq
  refine ⟨2 ^ binade / unitsPerOne, div_pos (by positivity) unitsPerOne_pos, fun j hPos hLe => ?_⟩
  have hPlace : InBinade (infinityRank - j) binade (2 * ranksPerBinade - j) := by
    simp only [ranksPerBinade] at hLe
    refine ⟨?_, .inr ?_, ?_⟩ <;> simp only [infinityRank, ranksPerBinade, hBinade] <;> omega
  have hCast : ((2 * ranksPerBinade - j : Nat) : ℚ) = 2 ^ 53 - j := by
    rw [Nat.cast_sub (by omega)]
    norm_num [ranksPerBinade]
  rw [magnitude, hPlace.units_eq, Nat.cast_mul, hCast, mul_div_assoc]
  push_cast
  rfl

/-- Powers of ten beyond the greatest one that is used are beyond the finite doubles. -/
theorem le_maxTenPower (hCoefficient : c ≠ 0) (h : Decimal.nearest ⟨c, k⟩ < infinityRank) :
    k ≤ maxTenPower := by
  by_contra hFar
  have hNext : infinityRank ≤ Decimal.nearest ⟨1, 309⟩ := by decide +kernel
  have hReached : Decimal.nearest ⟨1, 309⟩ ≤ Decimal.nearest ⟨c, k⟩ := by
    have hCount : ((1 : Nat) : ℚ) ≤ c := Nat.cast_le.2 (Nat.pos_of_ne_zero hCoefficient)
    have hPower : (309 : Int) ≤ k := by simp only [maxTenPower] at hFar; omega
    exact Decimal.nearest_mono
      (mul_le_mul hCount (ten_zpow_le hPower) (ten_zpow_pos 309).le (Nat.cast_nonneg c))
  omega

theorem mulRank_le (h : magnitude r * magnitude s ≤ magnitude n) : mulRank r s ≤ n := by
  have hUnits := unitsPerOne_pos
  refine nearestRank_le (Nat.cast_pos.1 hUnits) ?_
  rw [magnitude, magnitude, magnitude, div_mul_div_comm, div_le_div_iff₀ (by positivity) hUnits,
    ← mul_assoc, mul_le_mul_iff_of_pos_right hUnits] at h
  exact_mod_cast h

/-- What is rounded to a double that is not one of the last four does not become infinite. -/
theorem isSome_scaledRank? (hCoefficient : d.coefficient ≠ 0) (h : d.nearest + 5 ≤ infinityRank) :
    d.scaledRank?.isSome = true := by
  obtain ⟨c, e⟩ := d
  by_cases hNegative : e < 0
  · rw [scaledRank?_of_neg hNegative]
    rfl
  obtain ⟨k, rfl⟩ : ∃ k : Nat, e = k := ⟨e.natAbs, by omega⟩
  have hPower : k ≤ maxTenPower :=
    le_maxTenPower hCoefficient ((Nat.lt_add_of_pos_right (by decide)).trans_le h)
  obtain ⟨gap, hGap, hMagnitude⟩ := exists_magnitude_eq
  have hValue : Decimal.toRat ⟨c, k⟩ ≤ (2 ^ 53 - 4) * gap := by
    refine (Decimal.toRat_lt_magnitude_succ ⟨c, k⟩).le.trans ?_
    rw [← Nat.cast_ofNat (n := 4), ← hMagnitude 4 (by decide) (by decide)]
    exact magnitude_mono (by omega)
  have hFactors := (close_coefficient hCoefficient).mul (close_tenPowerRank hPower)
    (Nat.cast_nonneg c) (by positivity : (0 : ℚ) ≤ 10 ^ k)
  have hProduct : mulRank (Decimal.rank ⟨c, 0⟩) (tenPowerRank k) ≤ infinityRank - 1 := by
    apply mulRank_le
    rw [hMagnitude 1 (by decide) (by decide)]
    rw [Decimal.toRat, zpow_natCast] at hValue
    have hDistance := (le_abs_self _).trans hFactors
    unfold roundoff at hDistance
    norm_num at hDistance hValue ⊢
    linarith
  have hFinite : infinityRank - 1 < infinityRank := by decide
  rw [scaledRank?_of_nonneg hPower (hProduct.trans_lt hFinite)]
  rfl

end Overflow

end ArrowLisp.Number
