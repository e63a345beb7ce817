import ArrowLisp.Proofs.Number.Text

/-!
The shortest decimal of a double has the fewest digits of all decimals that are rounded to the
double, and of those with as many digits it is a nearest one. A decimal with fewer digits would have
a multiple of a coarser grid between itself and the one that the search has found.
-/

namespace ArrowLisp.Number

open Json.Numeral (digitsValue)

variable {tie : Tie} {r : Nat} {d d' : Decimal}

namespace Decimal

/-- The number of digits from the first one other than zero to the last one other than zero. -/
def precision (d : Decimal) : Nat := d.significand.digits.length

theorem precision_pos (d : Decimal) : 0 < d.precision :=
  List.length_pos_of_ne_nil (dropTrailingZeros_ne_nil _)

theorem coefficient_lt_iff {k : Nat} (hPos : 0 < k) :
    d.coefficient < 10 ^ k ↔ (Nat.toDigits 10 d.coefficient).length ≤ k :=
  (Nat.length_toDigits_le_iff (by decide) hPos).symm

theorem precision_le {k : Nat} (hPos : 0 < k) (h : d.coefficient < 10 ^ k) : d.precision ≤ k := by
  obtain ⟨zeros, hLength, -⟩ := d.exists_zeros
  have hDigits := (coefficient_lt_iff hPos).1 h
  rw [precision]
  omega

/-- A decimal is a count of units of its last digit, with no more digits than it has. -/
theorem exists_count (d : Decimal) : ∃ c < 10 ^ d.precision,
    d.toRat = toRat ⟨c, d.significand.exponent + 1 - d.precision⟩ := by
  obtain ⟨zeros, hLength, hCoefficient⟩ := d.exists_zeros
  refine ⟨digitsValue d.significand.digits, ?_, d.toRat_significand.symm⟩
  have hAll : d.coefficient < 10 ^ (d.precision + zeros) := by
    have := d.precision_pos
    exact (coefficient_lt_iff (by omega)).2 hLength.le
  rw [hCoefficient, pow_add] at hAll
  exact Nat.lt_of_mul_lt_mul_right hAll

theorem toRat_one (e : Int) : toRat ⟨1, e⟩ = 10 ^ e := by simp [toRat]

theorem toRat_lt_of_lt_ten_pow {c k : Nat} {e : Int} (h : c < 10 ^ k) :
    toRat ⟨c, e⟩ < 10 ^ (e + k) := by
  have hCount : (c : ℚ) < 10 ^ k := by exact_mod_cast h
  rw [toRat, add_comm, zpow_add₀ (by norm_num), zpow_natCast]
  exact mul_lt_mul_of_pos_right hCount (ten_zpow_pos e)

theorem lt_ten_pow_of_toRat_lt {k : Nat} (h : d.toRat < 10 ^ (d.exponent + k)) :
    d.coefficient < 10 ^ k := by
  rw [toRat, add_comm, zpow_add₀ (by norm_num), zpow_natCast,
    mul_lt_mul_iff_of_pos_right (ten_zpow_pos d.exponent)] at h
  exact_mod_cast h

/-- The leading digit of a decimal counts a power of ten that the decimal reaches. -/
theorem ten_zpow_le_toRat (h : d.coefficient ≠ 0) : 10 ^ d.significand.exponent ≤ d.toRat := by
  have hLow : 10 ^ ((Nat.toDigits 10 d.coefficient).length - 1) ≤ d.coefficient := by
    by_contra hLess
    obtain hOne | hMore := Nat.eq_zero_or_pos ((Nat.toDigits 10 d.coefficient).length - 1)
    · rw [hOne] at hLess
      omega
    · have := (coefficient_lt_iff hMore).1 (Nat.lt_of_not_le hLess)
      omega
  have hCount : (10 : ℚ) ^ ((Nat.toDigits 10 d.coefficient).length - 1) ≤ d.coefficient := by
    exact_mod_cast hLow
  rw [significand, toRat, add_comm, zpow_add₀ (by norm_num), zpow_natCast]
  exact mul_le_mul_of_nonneg_right hCount (ten_zpow_pos d.exponent).le

/-- It does not reach the next one. -/
theorem toRat_lt_ten_zpow (d : Decimal) : d.toRat < 10 ^ (d.significand.exponent + 1) := by
  obtain ⟨c, hCount, hValue⟩ := d.exists_count
  rw [hValue]
  refine (toRat_lt_of_lt_ten_pow hCount).trans_eq ?_
  congr 1
  ring

/-- A shortest decimal of a double: no decimal that is rounded to the double has fewer digits, and
of those with as many digits none is nearer. -/
structure IsShortest (d : Decimal) (r : Nat) : Prop where
  nearest_eq : d.nearest = r
  fewest : ∀ d' : Decimal, d'.nearest = r → d.precision ≤ d'.precision
  closest : ∀ d' : Decimal, d'.nearest = r → d'.precision = d.precision →
    |d.toRat - magnitude r| ≤ |d'.toRat - magnitude r|

theorem coefficient_ne_zero (hPos : r ≠ 0) (h : d.nearest = r) : d.coefficient ≠ 0 :=
  fun hZero => hPos (h ▸ nearest_of_coefficient_eq_zero hZero)

end Decimal

namespace Coarsest

/-- What is rounded to the double is no multiple of a coarser power of ten. -/
theorem exponent_le (hFound : Coarsest r (coarseGrid r) d) (hPos : r ≠ 0) (h : d'.nearest = r) :
    d'.exponent ≤ d.exponent := by
  have hCount : (1 : ℚ) ≤ d'.coefficient :=
    Nat.one_le_cast.2 (Nat.pos_of_ne_zero (Decimal.coefficient_ne_zero hPos h))
  have hBelow : (10 : ℚ) ^ d'.exponent < 10 ^ coarseGrid r :=
    calc (10 : ℚ) ^ d'.exponent ≤ d'.toRat := le_mul_of_one_le_left (ten_zpow_pos _).le hCount
      _ < magnitude (r + 1) := h ▸ d'.toRat_lt_magnitude_succ
      _ ≤ 10 ^ coarseGrid r := magnitude_succ_le r
  have hStart := (zpow_lt_zpow_iff_right₀ (by norm_num)).1 hBelow
  by_contra hCoarser
  exact hFound.coarsest d'.coefficient d'.exponent (not_le.1 hCoarser) hStart.le h

/-- No power of ten above the last digit of the decimal that has been found lies between this one
and another decimal of the double. -/
theorem toRat_lt_of_le {k : Nat} (hFound : Coarsest r (coarseGrid r) d) (hPos : r ≠ 0)
    (h : d'.nearest = r) (hPower : 0 < k) (hLow : d'.toRat ≤ 10 ^ (d.exponent + k)) :
    d.toRat < 10 ^ (d.exponent + k) := by
  by_contra hHigh
  have hOne := Decimal.toRat_one (d.exponent + k)
  have hBetween : (⟨1, d.exponent + k⟩ : Decimal).nearest = r :=
    (Decimal.nearest_eq_of_between (h.trans hFound.nearestOn.nearest_eq.symm) (hOne ▸ hLow)
      (hOne ▸ not_lt.1 hHigh)).trans hFound.nearestOn.nearest_eq
  have hExponent : d.exponent + k ≤ d.exponent := hFound.exponent_le hPos hBetween
  omega

theorem precision_le (hFound : Coarsest r (coarseGrid r) d) (hPos : r ≠ 0) (h : d'.nearest = r) :
    d.precision ≤ d'.precision := by
  obtain ⟨c, hCount, hValue⟩ := d'.exists_count
  have hSame := (Decimal.nearest_eq_of_toRat_eq hValue).symm.trans h
  have hExponent := hFound.exponent_le hPos hSame
  have hLow : (⟨c, d'.significand.exponent + 1 - d'.precision⟩ : Decimal).toRat ≤
      10 ^ (d.exponent + d'.precision) :=
    (Decimal.toRat_lt_of_lt_ten_pow hCount).le.trans
      (ten_zpow_le (Int.add_le_add_right hExponent _))
  have hLess := hFound.toRat_lt_of_le hPos hSame d'.precision_pos hLow
  exact Decimal.precision_le d'.precision_pos (Decimal.lt_ten_pow_of_toRat_lt hLess)

end Coarsest

/-- From the hundredth double on, neighbours differ by a hundredth at most. -/
theorem mul_units_succ_le {q : Nat} (h : 100 ≤ q) : 100 * units (q + 1) ≤ 101 * units q := by
  obtain ⟨s, k, hBinade⟩ := exists_inBinade q
  have hCount : 100 ≤ k := by
    obtain ⟨hRank, hLow, -⟩ := hBinade
    obtain rfl | hLow := hLow
    · omega
    · exact le_trans (by decide) hLow
  rw [hBinade.units_eq, hBinade.units_succ, ← mul_assoc, ← mul_assoc]
  exact Nat.mul_le_mul_right _ (by omega)

/-- A double that a power of ten is rounded to as well as something a tenth below it is one of the
first hundred. -/
theorem le_hundred_of_ten_pow {e : Int} (hPos : r ≠ 0) (hPower : (⟨1, e⟩ : Decimal).nearest = r)
    (h : d.nearest = r) (hBelow : d.toRat ≤ 9 * 10 ^ (e - 1)) : r ≤ 100 := by
  by_contra hLarge
  obtain ⟨q, rfl⟩ := Nat.exists_eq_succ_of_ne_zero hPos
  have hUnits := unitsPerOne_pos
  have hStep := mul_units_succ_le (q := q) (by omega)
  have hNext := mul_units_succ_le (q := q + 1) (by omega)
  have hLow : magnitude q < d.toRat := by
    have hPred := Decimal.magnitude_pred_lt_toRat (d := d) (by omega)
    rwa [h] at hPred
  have hHigh : (10 : ℚ) ^ e < magnitude (q + 1 + 1) := by
    have hSucc := Decimal.toRat_lt_magnitude_succ ⟨1, e⟩
    rwa [hPower, Decimal.toRat_one] at hSucc
  have hTenth : (10 : ℚ) ^ e = 10 * 10 ^ (e - 1) := by
    rw [← zpow_one_add₀ (by norm_num), add_sub_cancel]
  have hGap : 10 * magnitude q < 9 * magnitude (q + 1 + 1) := by linarith
  have hUnitsGap : 10 * units q < 9 * units (q + 1 + 1) := by
    rw [magnitude, magnitude, ← mul_div_assoc, ← mul_div_assoc,
      div_lt_div_iff_of_pos_right hUnits] at hGap
    exact_mod_cast hGap
  omega

theorem mul_ten_zpow_le {k : Nat} (h : 19 * unitsPerOne ≤ 4 * 10 ^ k) :
    19 * (10 : ℚ) ^ (-(k : Int)) ≤ 2 * magnitude 2 := by
  have hUnits := unitsPerOne_pos
  have hCast : 19 * (unitsPerOne : ℚ) ≤ 4 * 10 ^ k := by exact_mod_cast h
  rw [magnitude, show units 2 = 2 by rfl, zpow_neg, zpow_natCast, ← div_eq_mul_inv,
    ← mul_div_assoc, div_le_div_iff₀ (by positivity) hUnits]
  push_cast
  linarith

/-- The least doubles are so far apart that a power of ten and something a tenth below it can be
rounded alike. This happens with the second double only, to which the power of ten is nearer. -/
theorem ten_pow_closest {e : Int} (hPos : r ≠ 0) (hPower : (⟨1, e⟩ : Decimal).nearest = r)
    (h : d.nearest = r) (hBelow : d.toRat ≤ 9 * 10 ^ (e - 1)) :
    |(⟨1, e⟩ : Decimal).toRat - magnitude r| ≤ |d.toRat - magnitude r| := by
  have hSmall := le_hundred_of_ten_pow hPos hPower h hBelow
  have hMono : ∀ m n : Int, m ≤ n →
      (⟨1, m⟩ : Decimal).nearest ≤ (⟨1, n⟩ : Decimal).nearest := fun _ _ hLe =>
    Decimal.nearest_mono (by simpa only [Decimal.toRat_one] using ten_zpow_le hLe)
  have hLow : -323 ≤ e := by
    by_contra hLess
    have hZero : (⟨1, -324⟩ : Decimal).nearest = 0 := by decide +kernel
    have := hMono e (-324) (by omega)
    omega
  have hHigh : e ≤ -322 := by
    by_contra hMore
    have hFar : (⟨1, -321⟩ : Decimal).nearest = 202 := by decide +kernel
    have := hMono (-321) e (by omega)
    omega
  have hNine : d.nearest ≤ (⟨9, e - 1⟩ : Decimal).nearest :=
    Decimal.nearest_mono (by simpa [Decimal.toRat] using hBelow)
  obtain rfl | rfl : e = -322 ∨ e = -323 := by omega
  · have hTwenty : (⟨1, -322⟩ : Decimal).nearest = 20 := by decide +kernel
    have hEighteen : (⟨9, -322 - 1⟩ : Decimal).nearest = 18 := by decide +kernel
    omega
  · obtain rfl : r = 2 := hPower.symm.trans (by decide +kernel)
    have hTenth : (10 : ℚ) ^ (-323 : Int) = 10 * 10 ^ (-323 - 1 : Int) := by
      rw [← zpow_one_add₀ (by norm_num), add_sub_cancel]
    have hNear : 19 * (10 : ℚ) ^ (-323 - 1 : Int) ≤ 2 * magnitude 2 :=
      mul_ten_zpow_le (k := 324) (by decide +kernel)
    have hTen := ten_zpow_pos (-323 - 1)
    have hDistance := neg_le_abs (d.toRat - magnitude 2)
    rw [Decimal.toRat_one, abs_le]
    constructor <;> linarith

namespace Coarsest

/-- Of the decimals with as many digits that are rounded to the double none is nearer. -/
theorem closest (hFound : Coarsest r (coarseGrid r) d) (hPos : r ≠ 0) (h : d'.nearest = r)
    (hPrecision : d'.precision = d.precision) :
    |d.toRat - magnitude r| ≤ |d'.toRat - magnitude r| := by
  obtain ⟨c, hCount, hValue⟩ := d'.exists_count
  have hNearest := hFound.nearestOn
  have hSame := (Decimal.nearest_eq_of_toRat_eq hValue).symm.trans h
  have hExponent : d'.significand.exponent + 1 - d'.precision ≤ d.exponent :=
    hFound.exponent_le hPos hSame
  rw [hPrecision] at hCount hValue hSame hExponent
  rw [hValue]
  generalize d'.significand.exponent + 1 - d.precision = e at *
  obtain rfl | hFiner := hExponent.eq_or_lt
  · exact hNearest.closest c hSame
  -- On a finer grid the other decimal is so small that only one digit is left for either.
  have hLow : (⟨c, e⟩ : Decimal).toRat < 10 ^ (e + d.precision) :=
    Decimal.toRat_lt_of_lt_ten_pow hCount
  have hOne : d.precision = 1 := by
    by_contra hMore
    have hPrecisionPos := d.precision_pos
    have hLess := hFound.toRat_lt_of_le hPos hSame (k := d.precision - 1) (by omega)
      (hLow.le.trans (ten_zpow_le (by omega)))
    have hFewer := Decimal.precision_le (by omega) (Decimal.lt_ten_pow_of_toRat_lt hLess)
    omega
  rw [hOne] at hCount hLow
  have hCoefficient := Decimal.coefficient_ne_zero hPos hNearest.nearest_eq
  have hReached : (10 : ℚ) ^ d.exponent ≤ d.toRat :=
    le_mul_of_one_le_left (ten_zpow_pos _).le
      (Nat.one_le_cast.2 (Nat.pos_of_ne_zero hCoefficient))
  have hPower : (⟨1, d.exponent⟩ : Decimal).nearest = r := by
    refine (Decimal.nearest_eq_of_between (hSame.trans hNearest.nearest_eq.symm) ?_ ?_).trans
      hNearest.nearest_eq
    · rw [Decimal.toRat_one]
      exact hLow.le.trans (ten_zpow_le (by omega))
    · rw [Decimal.toRat_one]
      exact hReached
  refine (hNearest.closest 1 hPower).trans (ten_pow_closest hPos hPower hSame ?_)
  have hNine : (c : ℚ) ≤ 9 := by exact_mod_cast Nat.le_of_lt_succ hCount
  change (c : ℚ) * 10 ^ e ≤ _
  exact mul_le_mul hNine (ten_zpow_le (by omega)) (ten_zpow_pos e).le (by norm_num)

end Coarsest

/-- The search for the shortest decimal of a double finds one. -/
theorem isShortest_shortest (tie : Tie) (hPos : r ≠ 0) (h : r < infinityRank) :
    (shortest tie r).IsShortest r := by
  have hFound := coarsest_shortest tie hPos h
  exact ⟨hFound.nearestOn.nearest_eq, fun _ => hFound.precision_le hPos,
    fun _ => hFound.closest hPos⟩

/-- Neighbours differ by at least one part in `2 ^ 53` of the greater one. -/
theorem magnitude_succ_le_mul (q : Nat) :
    magnitude (q + 1) ≤ 2 ^ 53 * (magnitude (q + 1) - magnitude q) := by
  obtain ⟨s, k, hBinade⟩ := exists_inBinade q
  have hCount : k + 1 ≤ 2 ^ 53 := hBinade.high
  have hUnits : units (q + 1) + 2 ^ 53 * units q ≤ 2 ^ 53 * units (q + 1) := by
    rw [hBinade.units_eq, hBinade.units_succ]
    calc (k + 1) * 2 ^ s + 2 ^ 53 * (k * 2 ^ s) ≤ 2 ^ 53 * 2 ^ s + 2 ^ 53 * (k * 2 ^ s) :=
          Nat.add_le_add_right (Nat.mul_le_mul_right _ hCount) _
      _ = 2 ^ 53 * ((k + 1) * 2 ^ s) := by ring
  have hCast : (units (q + 1) + 2 ^ 53 * units q : ℚ) ≤ 2 ^ 53 * units (q + 1) := by
    exact_mod_cast hUnits
  rw [magnitude, magnitude, ← sub_div, ← mul_div_assoc,
    div_le_div_iff_of_pos_right unitsPerOne_pos]
  linarith

/-- A decimal that differs from a double by at most half of one part in `10 ^ 16` is rounded to
it. -/
theorem nearest_eq_of_dist_le (hPos : r ≠ 0)
    (h : 2 * 10 ^ 16 * |d.toRat - magnitude r| ≤ magnitude r) : d.nearest = r := by
  have hNearest := d.abs_toRat_sub_magnitude_le r
  have hDist := abs_sub_le (magnitude d.nearest) d.toRat (magnitude r)
  rw [abs_sub_comm (magnitude d.nearest) d.toRat] at hDist
  norm_num at h
  obtain hLess | hEqual | hMore := lt_trichotomy d.nearest r
  · obtain ⟨q, rfl⟩ : ∃ q, r = q + 1 := Nat.exists_eq_succ_of_ne_zero hPos
    have hBelow : magnitude d.nearest ≤ magnitude q := magnitude_mono (Nat.le_of_lt_succ hLess)
    have hGap := magnitude_succ_le_mul q
    have hLeast := magnitude_pos (Nat.succ_pos q)
    have hLow := neg_abs_le (magnitude d.nearest - magnitude (q + 1))
    linarith
  · exact hEqual
  · have hAbove : magnitude (r + 1) ≤ magnitude d.nearest := magnitude_mono hMore
    have hGap := magnitude_succ_le_mul r
    have hStep : magnitude r ≤ magnitude (r + 1) := magnitude_mono (Nat.le_succ r)
    have hLeast := magnitude_pos (Nat.pos_of_ne_zero hPos)
    have hHigh := le_abs_self (magnitude d.nearest - magnitude r)
    linarith

/-- Every double is near a decimal of at most 17 digits. -/
theorem exists_precision_le (hPos : r ≠ 0) : ∃ d : Decimal, d.nearest = r ∧ d.precision ≤ 17 := by
  have hMagnitude := magnitude_pos (Nat.pos_of_ne_zero hPos)
  obtain ⟨e, hLow, hHigh⟩ := exists_mem_Ico_zpow hMagnitude (by norm_num : (1 : ℚ) < 10)
  -- The last of 17 digits counts this power of ten.
  obtain ⟨grid, rfl⟩ : ∃ grid, e = grid + 16 := ⟨e - 16, by omega⟩
  have hGrid := ten_zpow_pos grid
  have hUnit : 10 ^ 16 * 10 ^ grid ≤ magnitude r := by
    rwa [zpow_add₀ (by norm_num), mul_comm] at hLow
  have hFloor : floorOn r grid < 10 ^ 17 := by
    have hBelow := (below_le_magnitude r grid).trans_lt hHigh
    rw [belowOn, add_assoc] at hBelow
    exact Decimal.lt_ten_pow_of_toRat_lt (d := ⟨floorOn r grid, grid⟩) hBelow
  obtain hHalf | hHalf := le_or_gt (restOn r grid) (1 / 2)
  · refine ⟨belowOn r grid, nearest_eq_of_dist_le hPos ?_, Decimal.precision_le (by decide) hFloor⟩
    rw [belowOn, abs_sub_magnitude_of_le le_rfl]
    have := mul_le_mul_of_nonneg_right hHalf hGrid.le
    linarith
  · refine ⟨aboveOn r grid, nearest_eq_of_dist_le hPos ?_, ?_⟩
    · rw [aboveOn, abs_sub_magnitude_of_lt (Nat.lt_succ_self _)]
      have := mul_le_mul_of_nonneg_right hHalf.le hGrid.le
      push_cast
      linarith
    · obtain hLess | hLast := Nat.lt_or_eq_of_le (Nat.succ_le_of_lt hFloor)
      · exact Decimal.precision_le (by decide) hLess
      · have hCoefficient : (aboveOn r grid).coefficient = 10 ^ 17 := hLast
        have hDigits : (dropTrailingZeros (Nat.toDigits 10 (10 ^ 17))).length ≤ 17 := by decide
        rwa [Decimal.precision, Decimal.significand, hCoefficient]

/-- The shortest decimal of a double has at most 17 digits. -/
theorem precision_shortest_le (tie : Tie) (h : r < infinityRank) :
    (shortest tie r).precision ≤ 17 := by
  obtain rfl | hPos := Nat.eq_zero_or_pos r
  · exact (by decide : Decimal.precision ⟨0, 0⟩ ≤ 17)
  · obtain ⟨d, hNearest, hDigits⟩ := exists_precision_le hPos.ne'
    exact ((isShortest_shortest tie hPos.ne' h).fewest d hNearest).trans hDigits

end ArrowLisp.Number
