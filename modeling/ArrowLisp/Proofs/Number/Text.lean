import ArrowLisp.Proofs.Json.Numeral
import ArrowLisp.Proofs.Number.Shortest

/-!
The text of a finite number is a number literal, and the number nearest to this literal is the one
that has been written, down to the sign of a zero. The text is taken apart as the digits of the
shortest decimal with a point among them, whichever of the two forms it has.
-/

namespace ArrowLisp.Number

open Json (Numeral)
open Json.Numeral (Digits digitsValue)

theorem head?_toDigits_ne_zero {n : Nat} (h : n ≠ 0) : (Nat.toDigits 10 n).head? ≠ some '0' := by
  induction n using Nat.strong_induction_on with
  | _ n ih =>
      rw [Nat.toDigits_eq_if (by decide)]
      split_ifs with hSmall
      · interval_cases n <;> simp_all
      · rw [List.head?_append_of_ne_nil _ Nat.toDigits_ne_nil]
        exact ih (n / 10) (by omega) (by omega)

/-- Of a list of digits nothing is dropped but zeros at its end. -/
theorem exists_dropTrailingZeros {digits : List Char} (h : digits ≠ []) :
    ∃ zeros, digits = dropTrailingZeros digits ++ List.replicate zeros '0' := by
  have hSplit : digits = (digits.reverse.dropWhile (· == '0')).reverse ++
      (digits.reverse.takeWhile (· == '0')).reverse := by
    rw [← List.reverse_append, List.takeWhile_append_dropWhile, List.reverse_reverse]
  have hZeros : (digits.reverse.takeWhile (· == '0')).reverse =
      List.replicate (digits.reverse.takeWhile (· == '0')).length '0' := by
    rw [List.eq_replicate_iff]
    refine ⟨List.length_reverse, fun c hMem => ?_⟩
    simpa using List.mem_takeWhile_imp (List.mem_reverse.1 hMem)
  generalize (digits.reverse.takeWhile (· == '0')).length = zeros at hZeros
  rw [hZeros] at hSplit
  rw [dropTrailingZeros]
  split
  · next hNone =>
      rw [hNone, List.nil_append] at hSplit
      obtain ⟨more, rfl⟩ : ∃ more, zeros = more + 1 :=
        Nat.exists_eq_succ_of_ne_zero (by rintro rfl; exact h hSplit)
      exact ⟨more, hSplit⟩
  · exact ⟨zeros, hSplit⟩

theorem dropTrailingZeros_ne_nil (digits : List Char) : dropTrailingZeros digits ≠ [] := by
  rw [dropTrailingZeros]
  split
  · simp
  · next hKept => exact hKept

theorem digits_zero : Digits ['0'] := Numeral.digits_toDigits 0

theorem digitsValue_append_zeros (digits : List Char) (zeros : Nat) :
    digitsValue (digits ++ List.replicate zeros '0') = digitsValue digits * 10 ^ zeros := by
  rw [digitsValue, Nat.ofDigitChars_append, Nat.ofDigitChars_replicate_zero, Nat.mul_comm]
  rfl

theorem digitsValue_zeros_append (zeros : Nat) (digits : List Char) :
    digitsValue (List.replicate zeros '0' ++ digits) = digitsValue digits := by
  rw [digitsValue, Nat.ofDigitChars_append, Nat.ofDigitChars_replicate_zero, Nat.mul_zero]
  rfl

namespace Significand

/-- The decimal that a significand stands for. -/
def value (s : Significand) : Decimal :=
  ⟨digitsValue s.digits, s.exponent + 1 - s.digits.length⟩

/-- Digits of which the first one is no zero, but for zero itself. -/
structure Normal (s : Significand) : Prop where
  digits : Digits s.digits
  leading : s.digits.head? = some '0' → s.digits = ['0'] ∧ s.exponent = 0

/-- The digits after a point; if there are none, a zero. -/
def fractionAfter (s : Significand) (whole : Nat) : List Char :=
  if (s.digits.drop whole).isEmpty then ['0'] else s.digits.drop whole

/-- The literal with the point after some of the digits, filled up with zeros. -/
def pointAfter (s : Significand) (negative : Bool) (whole : Nat) (exponent : Option Int) :
    Numeral where
  negative := negative
  whole := s.digits.take whole ++ List.replicate (whole - s.digits.length) '0'
  fraction := some (s.fractionAfter whole)
  exponent := exponent

/-- The literal with the point and then some zeros before the digits. -/
def pointBefore (s : Significand) (negative : Bool) : Numeral where
  negative := negative
  whole := ['0']
  fraction := some (List.replicate (-s.exponent - 1).toNat '0' ++ s.digits)
  exponent := none

/-- The literal without an exponent. -/
def plainNumeral (s : Significand) (negative : Bool) : Numeral :=
  if s.exponent < 0 then s.pointBefore negative
  else s.pointAfter negative (s.exponent.toNat + 1) none

/-- The literal with an exponent. -/
def scientificNumeral (s : Significand) (negative : Bool) : Numeral :=
  s.pointAfter negative 1 (some s.exponent)

variable {s : Significand} {negative : Bool} {whole : Nat} {exponent : Option Int}

theorem wellFormed_pointAfter (h : s.Normal) (hWhole : 0 < whole)
    (hZero : s.digits.head? = some '0' → whole = 1) :
    (s.pointAfter negative whole exponent).WellFormed := by
  obtain ⟨c, cs, hDigits⟩ := List.exists_cons_of_ne_nil h.digits.1
  obtain ⟨w, rfl⟩ : ∃ w, whole = w + 1 := Nat.exists_eq_succ_of_ne_zero (by omega)
  refine ⟨⟨?_, fun d hMem => ?_⟩, fun hHead => ?_, fun fraction hFraction => ?_⟩
  · simp [pointAfter, hDigits]
  · simp only [pointAfter, List.mem_append, List.mem_replicate] at hMem
    obtain hMem | ⟨-, rfl⟩ := hMem
    · exact h.digits.2 d (List.mem_of_mem_take hMem)
    · decide
  · have hFirst : s.digits.head? = some '0' := by simpa [pointAfter, hDigits] using hHead
    simp [pointAfter, (h.leading hFirst).1, hZero hFirst]
  · obtain rfl : s.fractionAfter (w + 1) = fraction := Option.some.inj hFraction
    rw [fractionAfter]
    split_ifs with hEmpty
    · exact digits_zero
    · exact ⟨by simpa using hEmpty, fun d hMem => h.digits.2 d (List.mem_of_mem_drop hMem)⟩

theorem wellFormed_pointBefore (h : s.Normal) : (s.pointBefore negative).WellFormed := by
  refine ⟨digits_zero, fun _ => rfl, fun fraction hFraction => ?_⟩
  obtain rfl := Option.some.inj hFraction
  refine ⟨by simp [h.digits.1], fun d hMem => ?_⟩
  simp only [List.mem_append, List.mem_replicate] at hMem
  obtain ⟨-, rfl⟩ | hMem := hMem
  · decide
  · exact h.digits.2 d hMem

theorem wellFormed_plainNumeral (h : s.Normal) : (s.plainNumeral negative).WellFormed := by
  rw [plainNumeral]
  split_ifs
  · exact wellFormed_pointBefore h
  · exact wellFormed_pointAfter h (Nat.succ_pos _) fun hZero => by simp [(h.leading hZero).2]

theorem wellFormed_scientificNumeral (h : s.Normal) :
    (s.scientificNumeral negative).WellFormed :=
  wellFormed_pointAfter h Nat.one_pos fun _ => rfl

/-- Where the point stands is made good by the exponent. -/
theorem toRat_pointAfter (h : (whole : Int) + exponent.getD 0 = s.exponent + 1) :
    (s.pointAfter negative whole exponent).magnitude.toRat = s.value.toRat := by
  -- Either zeros have been put after the digits, or the literal has just these digits.
  by_cases hAll : s.digits.length ≤ whole
  · have hDigits : s.digits.take whole ++ List.replicate (whole - s.digits.length) '0' ++ ['0'] =
        s.digits ++ List.replicate (whole - s.digits.length + 1) '0' := by
      rw [List.take_of_length_le hAll, List.append_assoc, List.replicate_succ']
    have hMagnitude : (s.pointAfter negative whole exponent).magnitude =
        ⟨digitsValue s.digits * 10 ^ (whole - s.digits.length + 1),
          s.exponent + 1 - s.digits.length - (whole - s.digits.length + 1 : Nat)⟩ := by
      simp only [Numeral.magnitude, pointAfter, fractionAfter, List.drop_of_length_le hAll,
        List.isEmpty_nil, if_true, Option.getD_some, hDigits, digitsValue_append_zeros,
        Decimal.mk.injEq, List.length_singleton, true_and]
      omega
    rw [hMagnitude, Decimal.toRat_shift]
    rfl
  · have hEmpty : ¬(s.digits.drop whole).isEmpty := by simpa using hAll
    have hMagnitude : (s.pointAfter negative whole exponent).magnitude = s.value := by
      simp only [Numeral.magnitude, pointAfter, fractionAfter, if_neg hEmpty, Option.getD_some,
        value, Nat.sub_eq_zero_of_le (Nat.le_of_not_le hAll), List.replicate_zero, List.append_nil,
        List.take_append_drop, Decimal.mk.injEq, List.length_drop, true_and]
      omega
    rw [hMagnitude]

theorem magnitude_pointBefore (h : s.exponent < 0) :
    (s.pointBefore negative).magnitude = s.value := by
  have hZeros : ['0'] ++ (List.replicate (-s.exponent - 1).toNat '0' ++ s.digits) =
      List.replicate ((-s.exponent - 1).toNat + 1) '0' ++ s.digits := by
    rw [List.replicate_succ, List.singleton_append, List.cons_append]
  simp only [Numeral.magnitude, pointBefore, Option.getD_some, Option.getD_none, hZeros,
    digitsValue_zeros_append, value, Decimal.mk.injEq, List.length_append, List.length_replicate,
    true_and]
  omega

theorem toRat_plainNumeral : (s.plainNumeral negative).magnitude.toRat = s.value.toRat := by
  rw [plainNumeral]
  split_ifs with hBefore
  · rw [magnitude_pointBefore hBefore]
  · exact toRat_pointAfter (by simp; omega)

theorem toRat_scientificNumeral :
    (s.scientificNumeral negative).magnitude.toRat = s.value.toRat :=
  toRat_pointAfter (by simp; omega)

/-- The sign of a literal. -/
def signChars (negative : Bool) : List Char := if negative then ['-'] else []

theorem chars_plainNumeral : (s.plainNumeral negative).chars = signChars negative ++ s.plain := by
  rw [plainNumeral, plain]
  split_ifs <;>
    simp [Numeral.chars, signChars, pointBefore, pointAfter, fractionAfter, Numeral.fractionChars,
      Numeral.exponentChars]

theorem chars_scientificNumeral (h : s.Normal) :
    (s.scientificNumeral negative).chars =
      signChars negative ++ (s.mantissa ['.', '0'] ++ 'E' :: integerText s.exponent) := by
  obtain ⟨c, cs, hDigits⟩ := List.exists_cons_of_ne_nil h.digits.1
  cases cs <;>
    simp [scientificNumeral, Numeral.chars, signChars, pointAfter, fractionAfter, mantissa, hDigits,
      Numeral.fractionChars, Numeral.exponentChars]

end Significand

namespace Decimal

variable {d : Decimal}

theorem normal_significand (h : d.coefficient = 0 → d.exponent = 0) : d.significand.Normal := by
  have hDigits : Nat.toDigits 10 d.coefficient ≠ [] := Nat.toDigits_ne_nil
  obtain ⟨zeros, hZeros⟩ := exists_dropTrailingZeros hDigits
  have hKept := dropTrailingZeros_ne_nil (Nat.toDigits 10 d.coefficient)
  refine ⟨⟨hKept, fun c hMem => ?_⟩, fun hHead => ?_⟩
  · refine (Numeral.digits_toDigits d.coefficient).2 c ?_
    rw [hZeros]
    exact List.mem_append_left _ hMem
  · have hFirst : (Nat.toDigits 10 d.coefficient).head? = some '0' := by
      rw [hZeros, List.head?_append_of_ne_nil _ hKept]
      exact hHead
    have hZero : d.coefficient = 0 := not_imp_comm.1 head?_toDigits_ne_zero (not_not.2 hFirst)
    simp [significand, hZero, h hZero]
    decide

/-- A coefficient is written with the digits of the significand and some zeros after them. -/
theorem exists_zeros (d : Decimal) : ∃ zeros,
    (Nat.toDigits 10 d.coefficient).length = d.significand.digits.length + zeros ∧
      d.coefficient = digitsValue d.significand.digits * 10 ^ zeros := by
  obtain ⟨zeros, hZeros⟩ := exists_dropTrailingZeros
    (Nat.toDigits_ne_nil : Nat.toDigits 10 d.coefficient ≠ [])
  refine ⟨zeros, ?_, ?_⟩
  · rw [hZeros, List.length_append, List.length_replicate]
    rfl
  · rw [← digitsValue_append_zeros, significand, ← hZeros]
    exact Nat.ofDigitChars_ten_toDigits.symm

/-- Neither dropping zeros nor placing the point changes the value of a decimal. -/
theorem toRat_significand (d : Decimal) : d.significand.value.toRat = d.toRat := by
  obtain ⟨zeros, hLength, hCoefficient⟩ := d.exists_zeros
  have hKept := List.length_pos_of_ne_nil (dropTrailingZeros_ne_nil (Nat.toDigits 10 d.coefficient))
  have hValue : d.significand.value = ⟨digitsValue d.significand.digits, d.exponent + zeros⟩ := by
    simp only [Significand.value, Decimal.mk.injEq, true_and, significand] at hLength ⊢
    omega
  calc d.significand.value.toRat = toRat ⟨digitsValue d.significand.digits * 10 ^ zeros,
        d.exponent + zeros - zeros⟩ := by rw [hValue, toRat_shift]
    _ = d.toRat := by rw [← hCoefficient, Int.add_sub_cancel]

end Decimal

/-- The literal that is the text of a finite number. -/
def numeral (x : Float) : Numeral :=
  let s := (shortest .upward (rank x)).significand
  if rank x = 0 ∨ (leastPlainRank ≤ rank x ∧ rank x < plainLimitRank) then
    s.plainNumeral (isNegative x)
  else s.scientificNumeral (isNegative x)

variable {x : Float}

theorem normal_shortest {r : Nat} (h : r < infinityRank) :
    (shortest .upward r).significand.Normal := by
  apply Decimal.normal_significand
  intro hZero
  have hRank : (shortest .upward r).rank = r :=
    (Decimal.rank_eq_iff h).2 (nearest_shortest .upward h)
  rw [Decimal.rank, if_pos hZero] at hRank
  rw [← hRank]
  rfl

/-- The text of a finite number is a number literal. -/
theorem text_eq (h : x.isFinite = true) : text x = String.ofList (numeral x).chars := by
  have hRank := isFinite_iff.1 h
  have hText : text x =
      String.ofList (Significand.signChars (isNegative x) ++ magnitudeText (rank x)) := by
    simp only [text, if_neg hRank.not_gt, if_neg hRank.ne, Significand.signChars]
    split_ifs <;> simp
  rw [hText, numeral, magnitudeText]
  split_ifs
  · rw [Significand.chars_plainNumeral]
  · rw [Significand.chars_scientificNumeral (normal_shortest hRank)]

theorem wellFormed_numeral (h : x.isFinite = true) : (numeral x).WellFormed := by
  have hNormal := normal_shortest (isFinite_iff.1 h)
  rw [numeral]
  split_ifs
  · exact Significand.wellFormed_plainNumeral hNormal
  · exact Significand.wellFormed_scientificNumeral hNormal

/-- The literal has exactly the value of the shortest decimal. -/
theorem toRat_numeral (x : Float) :
    (numeral x).magnitude.toRat = (shortest .upward (rank x)).toRat := by
  rw [← Decimal.toRat_significand (shortest .upward (rank x)), numeral]
  split_ifs
  · exact Significand.toRat_plainNumeral
  · exact Significand.toRat_scientificNumeral

theorem nearest_numeral (h : x.isFinite = true) : (numeral x).magnitude.nearest = rank x := by
  rw [Decimal.nearest_eq_of_toRat_eq (toRat_numeral x), nearest_shortest .upward (isFinite_iff.1 h)]

theorem negative_numeral (x : Float) : (numeral x).negative = isNegative x := by
  simp only [numeral, Significand.plainNumeral]
  split_ifs <;> rfl

/-- There is a point in every text of a number, so none is read as an integer. -/
theorem isSome_fraction_numeral (x : Float) : (numeral x).fraction.isSome = true := by
  simp only [numeral, Significand.plainNumeral]
  split_ifs <;> rfl

end ArrowLisp.Number
