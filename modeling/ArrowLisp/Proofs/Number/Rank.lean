import Mathlib
import ArrowLisp.Number.Rank

/-!
Doubles and their ranks. Sign and rank determine a double, and the finite doubles are those of rank
below that of the infinities. Magnitudes grow with the rank, so a rank is found again from its
magnitude, and rounding depends on nothing but the quotient that is rounded.
-/

namespace ArrowLisp.Number

section Bits

open Float.Model

theorem unpackExponent_toNat (b : UInt64) :
    (@UnpackedFloat.unpackExponent .binary64 b.toBitVec).toNat =
      b.toNat % signBit / ranksPerBinade := by
  rw [UnpackedFloat.unpackExponent_def, BitVec.extractLsb'_toNat]
  simp only [UInt64.toNat_toBitVec, signBit, ranksPerBinade, Nat.shiftRight_eq_div_pow]
  omega

theorem unpackMantissa_toNat (b : UInt64) :
    (@UnpackedFloat.unpackMantissa .binary64 b.toBitVec).toNat =
      b.toNat % ranksPerBinade := by
  rw [UnpackedFloat.unpackMantissa_def, BitVec.extractLsb'_toNat]
  simp [ranksPerBinade]

theorem unpackExponent_eq_ones_iff (b : UInt64) :
    @UnpackedFloat.unpackExponent .binary64 b.toBitVec = -1#11 ↔
      infinityRank ≤ b.toNat % signBit := by
  rw [← BitVec.toNat_inj, unpackExponent_toNat]
  simp [infinityRank, ranksPerBinade, signBit]
  omega

/-- The bits of not-a-number are those beyond the bits of an infinity. -/
theorem isNaNBits_iff {b : UInt64} :
    @UnpackedFloat.isNaNBits .binary64 b.toBitVec = true ↔ infinityRank < b.toNat % signBit := by
  have hMantissa := unpackMantissa_toNat b
  have hZero : @UnpackedFloat.unpackMantissa .binary64 b.toBitVec =
      BitVec.ofNat _ 0 ↔ b.toNat % ranksPerBinade = 0 := by
    rw [← BitVec.toNat_inj, hMantissa, BitVec.toNat_ofNat, Nat.zero_mod]
  rw [UnpackedFloat.isNaNBits, decide_eq_true_iff, unpackExponent_eq_ones_iff, ne_eq, hZero]
  simp only [infinityRank, ranksPerBinade, signBit]
  omega

theorem isFinite_iff {x : Float} : x.isFinite = true ↔ rank x < infinityRank := by
  have hOnes := unpackExponent_eq_ones_iff x.toBits
  change (UnpackedFloat.unpack .binary64 x.toBits.toBitVec).isFinite = true ↔ _
  rw [← Nat.not_le, rank, ← hOnes, UnpackedFloat.unpack]
  split_ifs <;> simp_all [UnpackedFloat.isFinite]

theorem isNaN_iff {x : Float} : x.isNaN = true ↔ infinityRank < rank x := by
  rw [Float.isNaN_eq_decide_eq_nan, decide_eq_true_iff]
  constructor
  · rintro rfl
    decide
  · intro h
    obtain ⟨hExponent, hMantissa⟩ := of_decide_eq_true (isNaNBits_iff.2 h)
    apply Float.toBits_inj.1
    apply UInt64.toBitVec_inj.1
    exact x.toModel.valid.eq_packedNaN hExponent hMantissa

theorem toBits_ofBits {b : UInt64} (h : b.toNat % signBit ≤ infinityRank) :
    (Float.ofBits b).toBits = b := by
  have hBits : UnpackedFloat.pack .binary64 (UnpackedFloat.unpack .binary64 b.toBitVec) =
      b.toBitVec := by
    rw [UnpackedFloat.pack_unpack, if_neg (mt isNaNBits_iff.1 h.not_gt)]
  exact UInt64.toBitVec_inj.1 hBits

end Bits

variable {negative : Bool} {r n d : Nat}

theorem toBits_ofRank (h : r ≤ infinityRank) :
    (ofRank negative r).toBits.toNat = (if negative then signBit else 0) + r := by
  have hToNat : (UInt64.ofNat ((if negative then signBit else 0) + min r infinityRank)).toNat =
      (if negative then signBit else 0) + r := by
    cases negative <;> simp [signBit, infinityRank, ranksPerBinade] at * <;> omega
  rw [ofRank, toBits_ofBits, hToNat]
  cases negative <;> simp [signBit, infinityRank, ranksPerBinade] at * <;> omega

theorem rank_ofRank (h : r ≤ infinityRank) : rank (ofRank negative r) = r := by
  have hSign : r < signBit := h.trans_lt (by decide)
  cases negative <;> simp [rank, toBits_ofRank h, Nat.mod_eq_of_lt hSign]

theorem isNegative_ofRank (h : r ≤ infinityRank) : isNegative (ofRank negative r) = negative := by
  have hSign : r < signBit := h.trans_lt (by decide)
  cases negative <;> simp [isNegative, toBits_ofRank h, hSign]

theorem toNat_toBits (x : Float) :
    x.toBits.toNat = (if isNegative x then signBit else 0) + rank x := by
  have hBits : x.toBits.toNat < 2 ^ 64 := x.toBits.toNat_lt
  simp only [isNegative, rank, decide_eq_true_eq]
  split_ifs <;> simp only [signBit] at * <;> omega

/-- A double that is a number is determined by its sign and its rank. -/
theorem ofRank_rank {x : Float} (h : rank x ≤ infinityRank) :
    ofRank (isNegative x) (rank x) = x := by
  apply Float.toBits_inj.1
  apply UInt64.toNat_inj.1
  rw [toBits_ofRank h, ← toNat_toBits]

theorem isFinite_ofRank (h : r < infinityRank) : (ofRank negative r).isFinite = true := by
  rw [isFinite_iff, rank_ofRank h.le]
  exact h

/-- A rank by its binade: `k` units of the binade that is `s` above the first one. Only in the
first binade are there fewer than `ranksPerBinade` of them. -/
structure InBinade (r s k : Nat) : Prop where
  rank_eq : r = s * ranksPerBinade + k
  low : s = 0 ∨ ranksPerBinade ≤ k
  high : k < 2 * ranksPerBinade

theorem exists_inBinade (r : Nat) : ∃ s k, InBinade r s k := by
  refine ⟨r / ranksPerBinade - 1, r - (r / ranksPerBinade - 1) * ranksPerBinade, ?_, ?_, ?_⟩ <;>
    simp only [ranksPerBinade] <;> omega

namespace InBinade

variable {s k : Nat}

theorem units_eq (h : InBinade r s k) : units r = k * 2 ^ s := by
  obtain ⟨rfl, hLow, hHigh⟩ := h
  by_cases hFirst : s * ranksPerBinade + k < ranksPerBinade
  · have hZero : s = 0 := by
      simp only [ranksPerBinade] at *
      omega
    subst hZero
    simp_all [units]
  · have hQuotient : (s * ranksPerBinade + k) / ranksPerBinade - 1 = s := by
      simp only [ranksPerBinade] at *
      omega
    have hRemainder : ranksPerBinade + (s * ranksPerBinade + k) % ranksPerBinade = k := by
      simp only [ranksPerBinade] at *
      omega
    rw [units, if_neg hFirst, hQuotient, hRemainder, Nat.shiftLeft_eq]

/-- The next magnitude is one unit of the binade further, also where it begins the next binade. -/
theorem units_succ (h : InBinade r s k) : units (r + 1) = (k + 1) * 2 ^ s := by
  obtain ⟨rfl, hLow, hHigh⟩ := h
  by_cases hLast : k + 1 = 2 * ranksPerBinade
  · have hNext : InBinade (s * ranksPerBinade + k + 1) (s + 1) ranksPerBinade :=
      ⟨by simp only [ranksPerBinade] at *; omega, .inr le_rfl, by decide⟩
    rw [hNext.units_eq, hLast, pow_succ]
    ring
  · have hNext : InBinade (s * ranksPerBinade + k + 1) s (k + 1) := ⟨by omega, by omega, by omega⟩
    exact hNext.units_eq

end InBinade

theorem units_lt_units_succ (r : Nat) : units r < units (r + 1) := by
  obtain ⟨s, k, h⟩ := exists_inBinade r
  rw [h.units_eq, h.units_succ]
  exact Nat.mul_lt_mul_of_pos_right (Nat.lt_succ_self k) (by positivity)

theorem units_strictMono : StrictMono units := strictMono_nat_of_lt_succ units_lt_units_succ

/-- Without the bits below its binade, any magnitude is one of a rank. -/
theorem inBinade_rankBelow (u : Nat) :
    InBinade (rankBelow u) (u.log2 - 52) (u / 2 ^ (u.log2 - 52)) := by
  refine ⟨by rw [rankBelow, Nat.shiftRight_eq_div_pow], ?_, ?_⟩
  · by_cases hLow : u.log2 ≤ 52
    · exact .inl (by omega)
    · have hPos : u ≠ 0 := by
        rintro rfl
        simp at hLow
      right
      rw [Nat.le_div_iff_mul_le (by positivity), show ranksPerBinade = 2 ^ 52 by rfl, ← pow_add,
        Nat.add_sub_cancel' (by omega)]
      exact Nat.log2_self_le hPos
  · rw [Nat.div_lt_iff_lt_mul (by positivity), show 2 * ranksPerBinade = 2 ^ 53 by rfl, ← pow_add]
    exact Nat.lt_log2_self.trans_le (Nat.pow_le_pow_right (by decide) (by omega))

theorem units_rankBelow_le (u : Nat) : units (rankBelow u) ≤ u := by
  rw [(inBinade_rankBelow u).units_eq]
  exact Nat.div_mul_le_self _ _

theorem lt_units_rankBelow_succ (u : Nat) : u < units (rankBelow u + 1) := by
  rw [(inBinade_rankBelow u).units_succ, Nat.mul_comm]
  exact Nat.lt_mul_div_succ u (by positivity)

theorem le_rankBelow_iff {u : Nat} : r ≤ rankBelow u ↔ units r ≤ u := by
  constructor
  · exact fun h => (units_strictMono.monotone h).trans (units_rankBelow_le u)
  · intro h
    have hLt : units r < units (rankBelow u + 1) := h.trans_lt (lt_units_rankBelow_succ u)
    exact Nat.le_of_lt_succ (units_strictMono.lt_iff_lt.1 hLt)

/-- A rank is found again from its magnitude. -/
theorem rankBelow_units (r : Nat) : rankBelow (units r) = r := by
  apply le_antisymm
  · exact units_strictMono.le_iff_le.1 (units_rankBelow_le (units r))
  · exact le_rankBelow_iff.2 le_rfl

theorem rankBelow_le_nearestRank : rankBelow (n / d) ≤ nearestRank n d := by
  simp only [nearestRank]
  split_ifs <;> omega

theorem nearestRank_le_succ : nearestRank n d ≤ rankBelow (n / d) + 1 := by
  simp only [nearestRank]
  split_ifs <;> omega

/-- What is exactly a magnitude is not rounded. -/
theorem nearestRank_units (hDenominator : 0 < d) : nearestRank (units r * d) d = r := by
  have hMiddle : 2 * (units r * d) < (units r + units (r + 1)) * d := by
    rw [← mul_assoc]
    exact Nat.mul_lt_mul_of_pos_right (by have := units_lt_units_succ r; omega) hDenominator
  rw [nearestRank, Nat.mul_div_cancel _ hDenominator, rankBelow_units]
  exact if_pos hMiddle

/-- Rounding does not take a quotient below a magnitude that it reaches. -/
theorem le_nearestRank (hDenominator : 0 < d) (h : units r * d ≤ n) : r ≤ nearestRank n d :=
  (le_rankBelow_iff.2 ((Nat.le_div_iff_mul_le hDenominator).2 h)).trans rankBelow_le_nearestRank

/-- Rounding does not take a quotient beyond a magnitude that it does not exceed. -/
theorem nearestRank_le (hDenominator : 0 < d) (h : n ≤ units r * d) : nearestRank n d ≤ r := by
  obtain hBelow | hReached := lt_or_ge (rankBelow (n / d)) r
  · exact nearestRank_le_succ.trans hBelow
  · have hExact : n = units r * d :=
      le_antisymm h ((Nat.le_div_iff_mul_le hDenominator).1 (le_rankBelow_iff.1 hReached))
    rw [hExact, nearestRank_units hDenominator]

/-- No rank is nearer to a quotient than the one that it is rounded to. -/
theorem dist_nearestRank_le (hDenominator : 0 < d) (r : Nat) :
    Nat.dist n (units (nearestRank n d) * d) ≤ Nat.dist n (units r * d) := by
  have hBelow : units (rankBelow (n / d)) * d ≤ n :=
    (Nat.le_div_iff_mul_le hDenominator).1 (units_rankBelow_le _)
  have hAbove : n < units (rankBelow (n / d) + 1) * d :=
    (Nat.div_lt_iff_lt_mul hDenominator).1 (lt_units_rankBelow_succ _)
  -- Every other rank is on the far side of one of the two neighbours.
  have hOther : units r * d ≤ units (rankBelow (n / d)) * d ∨
      units (rankBelow (n / d) + 1) * d ≤ units r * d := by
    obtain hLow | hHigh := Nat.lt_or_ge (rankBelow (n / d)) r
    · exact .inr (Nat.mul_le_mul_right d (units_strictMono.monotone hLow))
    · exact .inl (Nat.mul_le_mul_right d (units_strictMono.monotone hHigh))
  simp only [nearestRank, Nat.add_mul, Nat.dist]
  split_ifs
  · omega
  · omega
  · obtain hEven | hOdd := Nat.mod_two_eq_zero_or_one (rankBelow (n / d))
    · rw [hEven, Nat.add_zero]
      omega
    · rw [hOdd]
      omega

/-- Rounding is off by at most half the distance of the two magnitudes around the quotient. -/
theorem two_mul_dist_nearestRank_le (hDenominator : 0 < d) :
    2 * Nat.dist n (units (nearestRank n d) * d) ≤ 2 ^ ((n / d).log2 - 52) * d := by
  have hBelow : units (rankBelow (n / d)) * d ≤ n :=
    (Nat.le_div_iff_mul_le hDenominator).1 (units_rankBelow_le _)
  have hAbove : n < units (rankBelow (n / d) + 1) * d :=
    (Nat.div_lt_iff_lt_mul hDenominator).1 (lt_units_rankBelow_succ _)
  have hGap : units (rankBelow (n / d) + 1) * d =
      units (rankBelow (n / d)) * d + 2 ^ ((n / d).log2 - 52) * d := by
    have hBinade := inBinade_rankBelow (n / d)
    rw [hBinade.units_succ, hBinade.units_eq, ← Nat.add_mul, Nat.succ_mul]
  simp only [nearestRank, Nat.add_mul, Nat.dist]
  split_ifs
  · omega
  · omega
  · obtain hEven | hOdd := Nat.mod_two_eq_zero_or_one (rankBelow (n / d))
    · rw [hEven, Nat.add_zero]
      omega
    · rw [hOdd]
      omega

/-- Above the first binade, that is at most one part in `2 ^ 53` of the quotient. -/
theorem dist_nearestRank_le_of_le (hDenominator : 0 < d) (h : ranksPerBinade * d ≤ n) :
    2 ^ 53 * Nat.dist n (units (nearestRank n d) * d) ≤ n := by
  have hHalf := two_mul_dist_nearestRank_le (n := n) hDenominator
  have hQuotient : ranksPerBinade ≤ n / d := (Nat.le_div_iff_mul_le hDenominator).2 h
  have hLog : 52 ≤ (n / d).log2 :=
    (Nat.le_log2 (by simp only [ranksPerBinade] at *; omega)).2 hQuotient
  have hLow : 2 ^ 52 * 2 ^ ((n / d).log2 - 52) * d ≤ n := by
    rw [← pow_add, Nat.add_sub_cancel' hLog]
    refine (Nat.le_div_iff_mul_le hDenominator).1 (Nat.log2_self_le ?_)
    simp only [ranksPerBinade] at *
    omega
  calc 2 ^ 53 * Nat.dist n (units (nearestRank n d) * d)
      = 2 ^ 52 * (2 * Nat.dist n (units (nearestRank n d) * d)) := by ring
    _ ≤ 2 ^ 52 * (2 ^ ((n / d).log2 - 52) * d) := Nat.mul_le_mul_left _ hHalf
    _ ≤ n := by rwa [← mul_assoc]

/-- In the first binade it is at most half the least positive double. -/
theorem dist_nearestRank_le_of_lt (hDenominator : 0 < d) (h : n < ranksPerBinade * d) :
    2 * Nat.dist n (units (nearestRank n d) * d) ≤ d := by
  have hHalf := two_mul_dist_nearestRank_le (n := n) hDenominator
  have hQuotient : n / d < 2 ^ 52 := (Nat.div_lt_iff_lt_mul hDenominator).2 h
  have hLog : (n / d).log2 - 52 = 0 := by
    obtain hZero | hPos := Nat.eq_zero_or_pos (n / d)
    · rw [hZero]
      rfl
    · have := (Nat.log2_lt hPos.ne').2 hQuotient
      omega
  rwa [hLog, pow_zero, one_mul] at hHalf

theorem nearestRank_mul_left (k : Nat) (hFactor : 0 < k) :
    nearestRank (k * n) (k * d) = nearestRank n d := by
  simp only [nearestRank, Nat.mul_div_mul_left _ _ hFactor, Nat.mul_left_comm _ k,
    Nat.mul_lt_mul_left hFactor]

end ArrowLisp.Number
