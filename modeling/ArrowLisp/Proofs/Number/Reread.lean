import ArrowLisp.Proofs.Number.Notation
import ArrowLisp.Sexp.Encoding

/-!
Numbers that are written and read again. The text of a number has at most 17 digits, which are all
kept when it is read, and the double that is made of them is close to the number: both differ by at
most one part in `2 ^ 50`, or by two of the least doubles where that is more. It is the number
itself if the digits make an integer of 53 bits and the power of ten is a double.
-/

namespace ArrowLisp.Number

open Json (Numeral)
open Json.Numeral (Digits digitsValue)

/-- The double that the text of a number is read as. -/
def reread? (x : Float) : Option Float := do
  let literal ← Numeral.ofChars? (text x).toList
  let value ← literal.toJson?
  value.number?

/-- The same for numbers whose text has a value, as that of every finite one has. -/
def reread (x : Float) : Float := (reread? x).getD x

variable {x : Float} {n : Numeral} {s : Significand} {negative : Bool} {whole : Nat}
  {exponent : Option Int} {ds : List Char}

theorem ofChars?_text (h : x.isFinite = true) :
    Numeral.ofChars? (text x).toList = some (numeral x) := by
  rw [text_eq h, String.toList_ofList, Numeral.ofChars?_chars (wellFormed_numeral h)]

theorem toJson?_numeral (x : Float) : (numeral x).toJson? = (numeral x).toFloat?.map .double :=
  Numeral.toJson?_of_fraction (isSome_fraction_numeral x)

theorem reread?_eq (h : x.isFinite = true) : reread? x = (numeral x).toFloat? := by
  simp only [reread?, ofChars?_text h, Option.bind_eq_bind, Option.bind_some, toJson?_numeral]
  cases (numeral x).toFloat? <;> rfl

section Digits

theorem length_pointAfter (hPrecision : s.digits.length ≤ 17) (hWhole : whole ≤ 16) :
    (s.pointAfter negative whole exponent).whole.length +
      ((s.pointAfter negative whole exponent).fraction.getD []).length ≤ 17 := by
  simp only [Significand.pointAfter, Significand.fractionAfter, Option.getD_some,
    List.length_append, List.length_take, List.length_replicate]
  split_ifs with hEmpty
  · simp only [List.length_singleton]
    omega
  · simp only [List.length_drop]
    omega

/-- In none of its forms has a literal more than 17 digits from its first one on. -/
theorem coefficient_plainNumeral_lt (hNormal : s.Normal) (hPrecision : s.digits.length ≤ 17)
    (hExponent : s.exponent ≤ 15) : (s.plainNumeral negative).magnitude.coefficient < 10 ^ 17 := by
  rw [Significand.plainNumeral]
  split_ifs with hBefore
  · rw [Significand.magnitude_pointBefore hBefore]
    have hValue := Numeral.ofDigitChars_lt hNormal.digits.2 0
    rw [zero_add, one_mul] at hValue
    exact hValue.trans_le (Nat.pow_le_pow_right (by decide) hPrecision)
  · have hFormed : (s.pointAfter negative (s.exponent.toNat + 1) none).WellFormed :=
      Significand.wellFormed_pointAfter hNormal (Nat.succ_pos _) fun hZero => by
        simp [(hNormal.leading hZero).2]
    exact (Numeral.coefficient_lt hFormed).trans_le
      (Nat.pow_le_pow_right (by decide) (length_pointAfter hPrecision (by omega)))

theorem coefficient_scientificNumeral_lt (hNormal : s.Normal) (hPrecision : s.digits.length ≤ 17) :
    (s.scientificNumeral negative).magnitude.coefficient < 10 ^ 17 :=
  (Numeral.coefficient_lt (Significand.wellFormed_scientificNumeral hNormal)).trans_le
    (Nat.pow_le_pow_right (by decide) (length_pointAfter hPrecision (by decide)))

theorem coefficient_numeral_lt (h : x.isFinite = true) :
    (numeral x).magnitude.coefficient < 10 ^ 17 := by
  have hRank := isFinite_iff.1 h
  have hNormal := normal_shortest hRank
  have hPrecision := precision_shortest_le .upward hRank
  rw [numeral]
  split_ifs with hPlain
  · refine coefficient_plainNumeral_lt hNormal hPrecision ?_
    by_cases hZero : rank x = 0
    · rw [hZero]
      decide
    · have hLimits := (plain_iff hZero (isShortest_shortest .upward hZero hRank)).1
        (hPlain.resolve_left hZero)
      omega
  · exact coefficient_scientificNumeral_lt hNormal hPrecision

/-- All digits of a number are kept when it is read. -/
theorem kept_numeral (h : x.isFinite = true) : (numeral x).kept = (numeral x).magnitude :=
  Numeral.kept_eq_magnitude ((coefficient_numeral_lt h).le.trans (by decide))

end Digits

section Conversion

/-- The last four doubles are not read as infinities either. -/
theorem isSome_scaledRank?_last (h : rank x < infinityRank) (hLast : infinityRank < rank x + 5) :
    (numeral x).magnitude.scaledRank?.isSome = true := by
  have hAll : ∀ j < 4, ((shortest .upward (infinityRank - (j + 1))).significand.scientificNumeral
      false).magnitude.scaledRank?.isSome = true := by decide +kernel
  have hPlain : ¬(rank x = 0 ∨ leastPlainRank ≤ rank x ∧ rank x < plainLimitRank) := by
    have hLimit : plainLimitRank + 5 ≤ infinityRank := by decide +kernel
    omega
  obtain ⟨j, hFew, hRank⟩ : ∃ j < 4, rank x = infinityRank - (j + 1) :=
    ⟨infinityRank - 1 - rank x, by omega, by omega⟩
  rw [numeral, if_neg hPlain, hRank]
  exact hAll j hFew

theorem exists_scaledRank? (h : x.isFinite = true) : ∃ r < infinityRank,
    (numeral x).magnitude.scaledRank? = some r ∧ reread? x = some (ofRank (isNegative x) r) := by
  have hRank := isFinite_iff.1 h
  have hNearest := nearest_numeral h
  have hSome : (numeral x).magnitude.scaledRank?.isSome = true := by
    by_cases hZero : (numeral x).magnitude.coefficient = 0
    · rw [scaledRank?_of_coefficient_eq_zero hZero]
      rfl
    · obtain hLast | hNear := Nat.lt_or_ge infinityRank (rank x + 5)
      · exact isSome_scaledRank?_last hRank hLast
      · exact isSome_scaledRank? hZero (by rwa [hNearest])
  obtain ⟨r, hScaled⟩ := Option.isSome_iff_exists.1 hSome
  have hBits : (numeral x).magnitude.coefficient ≤ 2 ^ 64 :=
    (coefficient_numeral_lt h).le.trans (by decide)
  refine ⟨r, lt_infinityRank_of_scaledRank? hBits hScaled, hScaled, ?_⟩
  rw [reread?_eq h, Numeral.toFloat?, kept_numeral h, hScaled, negative_numeral]
  rfl

/-- Every finite number is read as a finite number from its text. -/
theorem reread?_eq_some (h : x.isFinite = true) : reread? x = some (reread x) := by
  obtain ⟨r, -, -, hRead⟩ := exists_scaledRank? h
  rw [reread, hRead]
  rfl

theorem exists_rank_reread (h : x.isFinite = true) : ∃ r < infinityRank,
    (numeral x).magnitude.scaledRank? = some r ∧ reread x = ofRank (isNegative x) r := by
  obtain ⟨r, hFinite, hScaled, hRead⟩ := exists_scaledRank? h
  exact ⟨r, hFinite, hScaled, by rw [reread, hRead, Option.getD_some]⟩

theorem isFinite_reread (h : x.isFinite = true) : (reread x).isFinite = true := by
  obtain ⟨r, hFinite, -, hEq⟩ := exists_rank_reread h
  rw [hEq]
  exact isFinite_ofRank hFinite

/-- The sign is always kept, also that of a zero. -/
theorem isNegative_reread (h : x.isFinite = true) : isNegative (reread x) = isNegative x := by
  obtain ⟨r, hFinite, -, hEq⟩ := exists_rank_reread h
  rw [hEq, isNegative_ofRank hFinite.le]

theorem coefficient_numeral_eq_zero (h : rank x = 0) : (numeral x).magnitude.coefficient = 0 := by
  have hValue := toRat_numeral x
  have hZero : (shortest .upward (rank x)).toRat = 0 := by
    rw [h, Decimal.toRat, show (shortest .upward 0).coefficient = 0 by rfl, Nat.cast_zero, zero_mul]
  rw [hZero, Decimal.toRat, mul_eq_zero] at hValue
  exact Nat.cast_eq_zero.1 (hValue.resolve_right (ten_zpow_pos _).ne')

/-- A literal with an exponent further down would be rounded to zero, which is written without
one. -/
theorem exponent_numeral_ge (h : x.isFinite = true)
    (hCoefficient : (numeral x).magnitude.coefficient ≠ 0) :
    -(2 * maxTenPower : Int) ≤ (numeral x).magnitude.exponent := by
  by_contra hSmall
  have hBits : (numeral x).magnitude.coefficient.log2 < 57 :=
    (Nat.log2_lt hCoefficient).2 ((coefficient_numeral_lt h).trans (by decide))
  have hZero : (numeral x).magnitude.nearest = 0 :=
    Decimal.nearest_eq_zero (by simp only [maxTenPower] at hSmall; omega)
  exact hCoefficient (coefficient_numeral_eq_zero ((nearest_numeral h).symm.trans hZero))

/-- A number and what is read from its text differ by little. -/
theorem abs_magnitude_reread_sub_le (h : x.isFinite = true) :
    |magnitude (rank (reread x)) - magnitude (rank x)| ≤
      magnitude (rank x) / 2 ^ 50 + magnitude 2 := by
  obtain ⟨r, hFinite, hScaled, hEq⟩ := exists_rank_reread h
  have hNearest := nearest_numeral h
  rw [hEq, rank_ofRank hFinite.le, ← hNearest]
  by_cases hZero : (numeral x).magnitude.coefficient = 0
  · obtain rfl : 0 = r :=
      Option.some.inj ((scaledRank?_of_coefficient_eq_zero hZero).symm.trans hScaled)
    rw [Decimal.nearest_of_coefficient_eq_zero hZero, sub_self, abs_zero]
    exact add_nonneg (div_nonneg (magnitude_nonneg 0) (by norm_num)) (magnitude_nonneg 2)
  · exact abs_magnitude_sub_nearest_le hZero (exponent_numeral_ge h hZero) hScaled

/-- A number with at most 53 bits of digits and a power of ten that is a double is read as it is. -/
theorem reread_eq_self (h : x.isFinite = true) (hRead : Numeral.ofChars? (text x).toList = some n)
    (hCoefficient : n.magnitude.coefficient ≤ 2 ^ 53)
    (hExponent : n.magnitude.exponent.natAbs ≤ 22) : reread x = x := by
  obtain rfl : numeral x = n := Option.some.inj ((ofChars?_text h).symm.trans hRead)
  have hRank := isFinite_iff.1 h
  have hNearest := nearest_numeral h
  obtain ⟨r, hFinite, hScaled, hEq⟩ := exists_rank_reread h
  have hExact := scaledRank?_eq_nearest hCoefficient hExponent (by rwa [hNearest])
  have hSame : rank x = r := by
    rw [← hNearest]
    exact Option.some.inj (hExact.symm.trans hScaled)
  rw [hEq, ← hSame, ofRank_rank hRank.le]

end Conversion

end ArrowLisp.Number
