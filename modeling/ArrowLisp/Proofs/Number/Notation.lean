import ArrowLisp.Proofs.Number.Precision

/-!
The two notations of numbers. Whether a number is written plainly is decided on the double, by
comparing it with those of one thousandth and of ten million. This agrees with the leading digit of
what is written: the digits begin below one of these limits exactly if the double lies below it.
-/

namespace ArrowLisp.Number

open Json (Numeral)
open Json.Numeral (Digits digitsValue digits_toDigits)
open Significand (signChars)

variable {r : Nat} {d : Decimal} {x : Float}

/-- A double reaches a power of ten exactly if its shortest decimals do, provided that nine tenths
of the power are rounded to less. -/
theorem le_exponent_iff {m : Int} (hPos : r ≠ 0) (hShortest : d.IsShortest r)
    (hGap : (⟨9, m - 1⟩ : Decimal).nearest < (⟨1, m⟩ : Decimal).nearest) :
    (⟨1, m⟩ : Decimal).nearest ≤ r ↔ m ≤ d.significand.exponent := by
  have hNearest := hShortest.nearest_eq
  constructor
  · intro hReached
    by_contra hLess
    have hBelow : d.toRat ≤ (⟨1, m⟩ : Decimal).toRat := by
      rw [Decimal.toRat_one]
      exact d.toRat_lt_ten_zpow.le.trans (ten_zpow_le (by omega))
    have hSame : (⟨1, m⟩ : Decimal).nearest = r :=
      le_antisymm hReached (hNearest.ge.trans (Decimal.nearest_mono hBelow))
    -- The power has one digit, so the shortest decimal has one, and this is a nine at most.
    have hOne : d.precision = 1 :=
      le_antisymm ((hShortest.fewest _ hSame).trans (Decimal.precision_le one_pos (by norm_num)))
        d.precision_pos
    obtain ⟨c, hCount, hValue⟩ := d.exists_count
    rw [hOne] at hCount hValue
    have hNine : d.toRat ≤ (⟨9, m - 1⟩ : Decimal).toRat := by
      rw [hValue]
      have hDigit : (c : ℚ) ≤ (9 : Nat) := Nat.cast_le.2 (Nat.le_of_lt_succ hCount)
      exact mul_le_mul hDigit (ten_zpow_le (by push_cast; omega)) (ten_zpow_pos _).le
        (Nat.cast_nonneg 9)
    have := Decimal.nearest_mono hNine
    omega
  · intro hExponent
    rw [← hNearest]
    apply Decimal.nearest_mono
    rw [Decimal.toRat_one]
    exact (ten_zpow_le hExponent).trans
      (Decimal.ten_zpow_le_toRat (Decimal.coefficient_ne_zero hPos hNearest))

theorem nearest_thousandth : (⟨1, -3⟩ : Decimal).nearest = leastPlainRank :=
  (Decimal.rank_eq_iff (by decide +kernel)).1 rfl

theorem nearest_tenMillion : (⟨1, 7⟩ : Decimal).nearest = plainLimitRank :=
  (Decimal.rank_eq_iff (by decide +kernel)).1 rfl

/-- The doubles that are written plainly are those whose digits begin within the same limits. -/
theorem plain_iff (hPos : r ≠ 0) (hShortest : d.IsShortest r) :
    leastPlainRank ≤ r ∧ r < plainLimitRank ↔
      -3 ≤ d.significand.exponent ∧ d.significand.exponent ≤ 6 := by
  have hLow := le_exponent_iff (m := -3) hPos hShortest (by decide +kernel)
  have hHigh := le_exponent_iff (m := 7) hPos hShortest (by decide +kernel)
  rw [nearest_thousandth] at hLow
  rw [nearest_tenMillion] at hHigh
  omega

/-- Plain decimal text: digits on both sides of a point, and no needless zero before them. -/
inductive IsPlain : List Char → Prop where
  | mk {whole fraction : List Char} (hWhole : Digits whole)
      (hLeading : whole.head? = some '0' → whole = ['0']) (hFraction : Digits fraction) :
      IsPlain (whole ++ '.' :: fraction)

/-- Text with an exponent: one digit other than zero, a point, digits, and the exponent with a minus
sign if it is negative, but without a plus sign and needless zeros. -/
inductive IsScientific (exponent : Int) : List Char → Prop where
  | mk {first : Char} {fraction power : List Char} (hFirst : first.isDigit = true)
      (hNonzero : first ≠ '0') (hFraction : Digits fraction) (hPower : Digits power)
      (hLeading : power.head? = some '0' → power = ['0'])
      (hValue : digitsValue power = exponent.natAbs) :
      IsScientific exponent
        (first :: '.' :: (fraction ++ 'E' :: (signChars (decide (exponent < 0)) ++ power)))

section Literals

variable {n : Numeral}

theorem integerText_eq (e : Int) :
    integerText e = signChars (decide (e < 0)) ++ Nat.toDigits 10 e.natAbs := by
  by_cases hNegative : e < 0 <;> simp [integerText, signChars, hNegative]

theorem leading_toDigits (k : Nat) (h : (Nat.toDigits 10 k).head? = some '0') :
    Nat.toDigits 10 k = ['0'] := by
  obtain rfl : k = 0 := by
    by_contra hPos
    exact head?_toDigits_ne_zero hPos h
  decide

theorem exists_isPlain (h : n.WellFormed) (hFraction : n.fraction.isSome = true)
    (hExponent : n.exponent = none) : ∃ cs, IsPlain cs ∧ n.chars = signChars n.negative ++ cs := by
  obtain ⟨fraction, hPoint⟩ := Option.isSome_iff_exists.1 hFraction
  refine ⟨_, .mk h.whole h.leading (h.fraction fraction hPoint), ?_⟩
  simp [Numeral.chars, signChars, hPoint, hExponent, Numeral.fractionChars, Numeral.exponentChars]

theorem exists_isScientific {first : Char} {e : Int} (h : n.WellFormed)
    (hFraction : n.fraction.isSome = true) (hExponent : n.exponent = some e)
    (hWhole : n.whole = [first]) (hNonzero : first ≠ '0') :
    ∃ cs, IsScientific e cs ∧ n.chars = signChars n.negative ++ cs := by
  obtain ⟨fraction, hPoint⟩ := Option.isSome_iff_exists.1 hFraction
  have hFirst : first.isDigit = true := h.whole.2 first (by simp [hWhole])
  refine ⟨_, .mk hFirst hNonzero (h.fraction fraction hPoint) (digits_toDigits e.natAbs)
    (leading_toDigits e.natAbs) Nat.ofDigitChars_ten_toDigits, ?_⟩
  simp [Numeral.chars, signChars, hPoint, hExponent, hWhole, Numeral.fractionChars,
    Numeral.exponentChars, integerText_eq]

end Literals

/-- Outside of the plain doubles, the point of the literal stands after a digit other than zero. -/
theorem exists_whole_numeral (hFinite : x.isFinite = true)
    (hPlain : ¬(rank x = 0 ∨ leastPlainRank ≤ rank x ∧ rank x < plainLimitRank))
    (hExponent : (shortest .upward (rank x)).significand.exponent ≠ 0) :
    (numeral x).exponent = some (shortest .upward (rank x)).significand.exponent ∧
      ∃ first, first ≠ '0' ∧ (numeral x).whole = [first] := by
  have hNormal := normal_shortest (isFinite_iff.1 hFinite)
  obtain ⟨first, others, hDigits⟩ := List.exists_cons_of_ne_nil hNormal.digits.1
  rw [numeral, if_neg hPlain]
  refine ⟨rfl, first, ?_, ?_⟩
  · rintro rfl
    exact hExponent (hNormal.leading (by rw [hDigits, List.head?_cons])).2
  · simp [Significand.scientificNumeral, Significand.pointAfter, hDigits]

/-- How a finite number is written, and what is read again. -/
structure Written (x : Float) (literal : Numeral) (d : Decimal) : Prop where
  /-- The text is a number literal. -/
  reads : Numeral.ofChars? (text x).toList = some literal
  /-- The number is the double that the literal is rounded to, with its sign. -/
  rounds : literal.magnitude.toFloat? literal.negative = some x
  /-- No double is nearer to the literal. -/
  nearest : ∀ r, |literal.magnitude.toRat - magnitude (rank x)| ≤
    |literal.magnitude.toRat - magnitude r|
  /-- Exactly a shortest decimal has been written. -/
  value_eq : literal.magnitude.toRat = d.toRat
  shortest : rank x ≠ 0 → d.IsShortest (rank x)
  /-- The limits for the double are limits for the leading digit. -/
  limits : rank x ≠ 0 → (leastPlainRank ≤ rank x ∧ rank x < plainLimitRank ↔
    -3 ≤ d.significand.exponent ∧ d.significand.exponent ≤ 6)
  plain : rank x ≠ 0 → -3 ≤ d.significand.exponent ∧ d.significand.exponent ≤ 6 →
    ∃ cs, IsPlain cs ∧ text x = String.ofList (signChars (isNegative x) ++ cs)
  scientific : rank x ≠ 0 → ¬(-3 ≤ d.significand.exponent ∧ d.significand.exponent ≤ 6) →
    ∃ cs, IsScientific d.significand.exponent cs ∧
      text x = String.ofList (signChars (isNegative x) ++ cs)

/-- Every finite number is written with the digits of a shortest decimal, plainly if the first one
counts a power of ten from the thousandth to the million and with its power of ten otherwise, and
the text reads as the same double again. -/
theorem written_of_isFinite (hFinite : x.isFinite = true) :
    Written x (numeral x) (shortest .upward (rank x)) := by
  have hRank := isFinite_iff.1 hFinite
  have hText := text_eq hFinite
  have hLiteral := wellFormed_numeral hFinite
  have hFraction := isSome_fraction_numeral x
  have hNearest := nearest_numeral hFinite
  have hShortest := fun hPos : rank x ≠ 0 => isShortest_shortest .upward hPos hRank
  refine ⟨?_, ?_, ?_, toRat_numeral x, hShortest, fun hPos => plain_iff hPos (hShortest hPos),
    fun hPos hExponent => ?_, fun hPos hExponent => ?_⟩
  · rw [hText, String.toList_ofList, Numeral.ofChars?_chars hLiteral]
  · rw [negative_numeral, Decimal.toFloat?_eq_some hFinite hNearest]
  · rw [← hNearest]
    exact (numeral x).magnitude.abs_toRat_sub_magnitude_le
  · have hPlain := (plain_iff hPos (hShortest hPos)).2 hExponent
    have hNone : (numeral x).exponent = none := by
      rw [numeral, if_pos (.inr hPlain), Significand.plainNumeral]
      split_ifs <;> rfl
    obtain ⟨cs, hCs, hChars⟩ := exists_isPlain hLiteral hFraction hNone
    exact ⟨cs, hCs, by rw [hText, hChars, negative_numeral]⟩
  · have hPlain := mt (plain_iff hPos (hShortest hPos)).1 hExponent
    obtain ⟨hSome, first, hNonzero, hWhole⟩ :=
      exists_whole_numeral hFinite (not_or.2 ⟨hPos, hPlain⟩) (by omega)
    obtain ⟨cs, hCs, hChars⟩ := exists_isScientific hLiteral hFraction hSome hWhole hNonzero
    exact ⟨cs, hCs, by rw [hText, hChars, negative_numeral]⟩

theorem written_of_isFinite_secondDouble : (ofRank true 2).isFinite = true ∧
    Written (ofRank true 2) (numeral (ofRank true 2))
      (shortest .upward (rank (ofRank true 2))) ∧
    text (ofRank true 2) = "-1.0E-323" :=
  ⟨isFinite_ofRank (by decide), written_of_isFinite (isFinite_ofRank (by decide)),
    by decide +kernel⟩

end ArrowLisp.Number
