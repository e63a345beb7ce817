import ArrowLisp.Proofs.Number.Decimal

/-!
The exact values of decimals and of doubles, as rationals. Rounding respects their order, and what
is rounded to a double lies strictly between its two neighbours.
-/

namespace ArrowLisp.Number

variable {r n n' d d' : Nat}

theorem nearestRank_le_nearestRank_of_le (h : n ≤ n') :
    nearestRank n d ≤ nearestRank n' d := by
  have hBelow : rankBelow (n / d) ≤ rankBelow (n' / d) :=
    le_rankBelow_iff.2 ((units_rankBelow_le _).trans (Nat.div_le_div_right h))
  obtain hLess | hSame := hBelow.lt_or_eq
  · exact nearestRank_le_succ.trans (hLess.trans_le rankBelow_le_nearestRank)
  · simp only [nearestRank, hSame]
    split_ifs <;> omega

/-- Rounding respects the order of quotients. -/
theorem nearestRank_mono (hLeft : 0 < d) (hRight : 0 < d') (h : n * d' ≤ n' * d) :
    nearestRank n d ≤ nearestRank n' d' := by
  rw [← nearestRank_mul_left d' hRight, ← nearestRank_mul_left d hLeft (n := n'), Nat.mul_comm d' n,
    Nat.mul_comm d n', Nat.mul_comm d' d]
  exact nearestRank_le_nearestRank_of_le h

/-- The exact magnitude of a rank. -/
def magnitude (r : Nat) : ℚ := units r / unitsPerOne

theorem unitsPerOne_pos : (0 : ℚ) < unitsPerOne := by
  obtain ⟨k, hPower⟩ : ∃ k, unitsPerOne = 2 ^ k := ⟨_, unitsPerOne_eq⟩
  rw [hPower]
  positivity

theorem magnitude_nonneg (r : Nat) : 0 ≤ magnitude r :=
  div_nonneg (Nat.cast_nonneg _) unitsPerOne_pos.le

theorem magnitude_pos {r : Nat} (h : 0 < r) : 0 < magnitude r :=
  div_pos (Nat.cast_pos.2 ((Nat.zero_le _).trans_lt (units_strictMono h))) unitsPerOne_pos

theorem magnitude_mono {r s : Nat} (h : r ≤ s) : magnitude r ≤ magnitude s :=
  div_le_div_of_nonneg_right (Nat.cast_le.2 (units_strictMono.monotone h)) unitsPerOne_pos.le

theorem cast_dist (a b : Nat) : ((Nat.dist a b : Nat) : ℚ) = |(a : ℚ) - b| := by
  obtain h | h := le_total a b
  · rw [Nat.dist_eq_sub_of_le h, Nat.cast_sub h, abs_sub_comm,
      abs_of_nonneg (sub_nonneg.2 (Nat.cast_le.2 h))]
  · rw [Nat.dist_eq_sub_of_le_right h, Nat.cast_sub h,
      abs_of_nonneg (sub_nonneg.2 (Nat.cast_le.2 h))]

/-- The distance of a quotient from a magnitude, in the units in which it is rounded. -/
theorem abs_div_sub_magnitude (hDenominator : 0 < d) (r : Nat) :
    |(n / (d * unitsPerOne) : ℚ) - magnitude r| =
      (Nat.dist n (units r * d) : ℕ) / (d * unitsPerOne) := by
  have hUnits := unitsPerOne_pos
  have hPos : (0 : ℚ) < d := Nat.cast_pos.2 hDenominator
  have hSub : (n / (d * unitsPerOne) : ℚ) - magnitude r =
      (n - units r * d) / (d * unitsPerOne) := by
    rw [magnitude]
    field_simp
  rw [hSub, abs_div, abs_of_pos (mul_pos hPos hUnits), cast_dist]
  push_cast
  rfl

theorem ten_zpow_pos (e : Int) : (0 : ℚ) < 10 ^ e := zpow_pos (by norm_num) e

theorem ten_zpow_le {e e' : Int} (h : e ≤ e') : (10 : ℚ) ^ e ≤ 10 ^ e' :=
  zpow_le_zpow_right₀ (by norm_num) h

theorem ten_zpow_eq (e : Int) : (10 : ℚ) ^ e = 10 ^ e.toNat / 10 ^ (-e).toNat := by
  rw [← zpow_natCast, ← zpow_natCast, ← zpow_sub₀ (by norm_num), Int.toNat_sub_toNat_neg]

namespace Decimal

/-- The exact value of a decimal. -/
def toRat (d : Decimal) : ℚ := d.coefficient * 10 ^ d.exponent

variable {d d' : Decimal}

/-- Digits moved from the power of ten to the coefficient change nothing. -/
theorem toRat_shift (c : Nat) (e : Int) (k : Nat) : toRat ⟨c * 10 ^ k, e - k⟩ = toRat ⟨c, e⟩ := by
  rw [toRat, toRat, zpow_sub₀ (by norm_num), zpow_natCast]
  push_cast
  field_simp

theorem toRat_eq_div (d : Decimal) : d.toRat = d.numerator / (d.denominator * unitsPerOne) := by
  have hUnits := unitsPerOne_pos
  rw [toRat, ten_zpow_eq, numerator, denominator]
  push_cast
  field_simp

theorem toRat_le_toRat_iff :
    d.toRat ≤ d'.toRat ↔ d.numerator * d'.denominator ≤ d'.numerator * d.denominator := by
  have hUnits := unitsPerOne_pos
  have hLeft : (0 : ℚ) < d.denominator := Nat.cast_pos.2 d.denominator_pos
  have hRight : (0 : ℚ) < d'.denominator := Nat.cast_pos.2 d'.denominator_pos
  rw [toRat_eq_div, toRat_eq_div, ← div_div, ← div_div, div_le_div_iff_of_pos_right hUnits,
    div_le_div_iff₀ hLeft hRight]
  exact_mod_cast Iff.rfl

theorem magnitude_le_toRat_iff : magnitude r ≤ d.toRat ↔ units r * d.denominator ≤ d.numerator := by
  have hUnits := unitsPerOne_pos
  have hPos : (0 : ℚ) < d.denominator := Nat.cast_pos.2 d.denominator_pos
  rw [toRat_eq_div, magnitude, ← div_div, div_le_div_iff_of_pos_right hUnits, le_div_iff₀ hPos]
  exact_mod_cast Iff.rfl

theorem toRat_le_magnitude_iff : d.toRat ≤ magnitude r ↔ d.numerator ≤ units r * d.denominator := by
  have hUnits := unitsPerOne_pos
  have hPos : (0 : ℚ) < d.denominator := Nat.cast_pos.2 d.denominator_pos
  rw [toRat_eq_div, magnitude, ← div_div, div_le_div_iff_of_pos_right hUnits, div_le_iff₀ hPos]
  exact_mod_cast Iff.rfl

/-- Rounding respects the order of values. -/
theorem nearest_mono (h : d.toRat ≤ d'.toRat) : d.nearest ≤ d'.nearest :=
  nearestRank_mono d.denominator_pos d'.denominator_pos (toRat_le_toRat_iff.1 h)

theorem nearest_eq_of_toRat_eq (h : d.toRat = d'.toRat) : d.nearest = d'.nearest :=
  le_antisymm (nearest_mono h.le) (nearest_mono h.ge)

theorem le_nearest_of_magnitude_le (h : magnitude r ≤ d.toRat) : r ≤ d.nearest :=
  le_nearestRank d.denominator_pos (magnitude_le_toRat_iff.1 h)

theorem nearest_le_of_le_magnitude (h : d.toRat ≤ magnitude r) : d.nearest ≤ r :=
  nearestRank_le d.denominator_pos (toRat_le_magnitude_iff.1 h)

theorem nearest_of_coefficient_eq_zero (h : d.coefficient = 0) : d.nearest = 0 := by
  have hValue : d.toRat = magnitude 0 := by
    rw [toRat, h, magnitude, show units 0 = 0 by rfl]
    simp
  exact Nat.le_zero.1 (nearest_le_of_le_magnitude hValue.le)

/-- What is rounded to a double lies below the next one. -/
theorem toRat_lt_magnitude_succ (d : Decimal) : d.toRat < magnitude (d.nearest + 1) := by
  refine lt_of_not_ge fun hReached => ?_
  exact (Nat.lt_succ_self d.nearest).not_ge (le_nearest_of_magnitude_le hReached)

/-- What is rounded to a double lies above the one before. -/
theorem magnitude_pred_lt_toRat (h : d.nearest ≠ 0) : magnitude (d.nearest - 1) < d.toRat := by
  by_contra hNot
  have hLe := nearest_le_of_le_magnitude (not_lt.1 hNot)
  omega

/-- What lies between two decimals that are rounded alike is rounded as they are. -/
theorem nearest_eq_of_between {m : Decimal} (hSame : d.nearest = d'.nearest)
    (hLow : d.toRat ≤ m.toRat) (hHigh : m.toRat ≤ d'.toRat) : m.nearest = d'.nearest :=
  le_antisymm (nearest_mono hHigh) (hSame.ge.trans (nearest_mono hLow))

/-- No double is nearer to a decimal than the one that it is rounded to. -/
theorem abs_toRat_sub_magnitude_le (d : Decimal) (r : Nat) :
    |d.toRat - magnitude d.nearest| ≤ |d.toRat - magnitude r| := by
  rw [toRat_eq_div, abs_div_sub_magnitude d.denominator_pos,
    abs_div_sub_magnitude d.denominator_pos]
  exact div_le_div_of_nonneg_right (Nat.cast_le.2 (dist_nearestRank_le d.denominator_pos r))
    (mul_nonneg (Nat.cast_nonneg _) unitsPerOne_pos.le)

end Decimal

end ArrowLisp.Number
