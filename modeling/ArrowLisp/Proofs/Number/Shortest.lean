import ArrowLisp.Number.Shortest
import ArrowLisp.Proofs.Number.Value

/-!
The search for the shortest decimal of a double. On a grid only the two neighbours of the double
need be tried, since rounding respects the order. The first grid lies above everything that is
rounded to the double and the last one holds the double itself, so the search finds the coarsest
grid on which there is a decimal of the double, and on it the nearest one.
-/

namespace ArrowLisp.Number

variable {tie : Tie} {r : Nat} {grid : Int} {d : Decimal}

/-- How often `10 ^ grid` goes into a magnitude. -/
def floorOn (r : Nat) (grid : Int) : Nat := (scaled r grid).1 / (scaled r grid).2

/-- What is left of a magnitude after that, as a part of `10 ^ grid`. -/
def restOn (r : Nat) (grid : Int) : ℚ :=
  ((scaled r grid).1 % (scaled r grid).2 : Nat) / (scaled r grid).2

theorem scaled_pos (r : Nat) (grid : Int) : 0 < (scaled r grid).2 := by
  have hUnits : 0 < unitsPerOne := Nat.cast_pos.1 unitsPerOne_pos
  rw [scaled]
  split_ifs
  · exact Nat.mul_pos hUnits (Nat.pow_pos (by decide))
  · exact hUnits

theorem scaled_eq (r : Nat) (grid : Int) :
    ((scaled r grid).1 : ℚ) / (scaled r grid).2 = magnitude r / 10 ^ grid := by
  have hUnits := unitsPerOne_pos
  rw [scaled, magnitude, ten_zpow_eq]
  split_ifs with hWhole
  · have hZero : (-grid).toNat = 0 := by omega
    push_cast [hZero, Nat.pow_eq]
    field_simp
  · have hZero : grid.toNat = 0 := by omega
    push_cast [hZero, Nat.pow_eq]
    field_simp

theorem restOn_nonneg (r : Nat) (grid : Int) : 0 ≤ restOn r grid := by
  unfold restOn
  positivity

theorem restOn_lt_one (r : Nat) (grid : Int) : restOn r grid < 1 := by
  have hPos : (0 : ℚ) < (scaled r grid).2 := Nat.cast_pos.2 (scaled_pos r grid)
  rw [restOn, div_lt_one hPos]
  exact_mod_cast Nat.mod_lt _ (scaled_pos r grid)

theorem magnitude_eq (r : Nat) (grid : Int) :
    magnitude r = (floorOn r grid + restOn r grid) * 10 ^ grid := by
  have hPos : (0 : ℚ) < (scaled r grid).2 := Nat.cast_pos.2 (scaled_pos r grid)
  have hDivision : ((scaled r grid).1 : ℚ) = (scaled r grid).2 * floorOn r grid +
      ((scaled r grid).1 % (scaled r grid).2 : Nat) := by
    exact_mod_cast (Nat.div_add_mod (scaled r grid).1 (scaled r grid).2).symm
  rw [← div_eq_iff (ten_zpow_pos grid).ne', ← scaled_eq, restOn, hDivision]
  field_simp

/-- Where the rest is at most a half, the floor is at least as near as the multiple after it. -/
theorem two_mul_rest_le_iff : 2 * ((scaled r grid).1 % (scaled r grid).2) ≤ (scaled r grid).2 ↔
    restOn r grid ≤ 1 - restOn r grid := by
  have hPos : (0 : ℚ) < (scaled r grid).2 := Nat.cast_pos.2 (scaled_pos r grid)
  rw [le_sub_iff_add_le, restOn, ← add_div, div_le_one hPos, ← two_mul]
  exact_mod_cast Iff.rfl

theorem le_two_mul_rest_iff : (scaled r grid).2 ≤ 2 * ((scaled r grid).1 % (scaled r grid).2) ↔
    1 - restOn r grid ≤ restOn r grid := by
  have hPos : (0 : ℚ) < (scaled r grid).2 := Nat.cast_pos.2 (scaled_pos r grid)
  rw [sub_le_iff_le_add, restOn, ← add_div, one_le_div hPos, ← two_mul]
  exact_mod_cast Iff.rfl

/-- The distance of a magnitude from a multiple at or below it. -/
theorem abs_sub_magnitude_of_le {c : Nat} (h : c ≤ floorOn r grid) :
    |(⟨c, grid⟩ : Decimal).toRat - magnitude r| =
      (floorOn r grid - c + restOn r grid) * 10 ^ grid := by
  have hCount : (c : ℚ) ≤ floorOn r grid := Nat.cast_le.2 h
  have hRest := restOn_nonneg r grid
  have hSub : (⟨c, grid⟩ : Decimal).toRat - magnitude r =
      -((floorOn r grid - c + restOn r grid) * 10 ^ grid) := by
    rw [magnitude_eq r grid, Decimal.toRat]
    ring
  rw [hSub, abs_neg, abs_of_nonneg (mul_nonneg (by linarith) (ten_zpow_pos grid).le)]

/-- The distance of a magnitude from a multiple above it. -/
theorem abs_sub_magnitude_of_lt {c : Nat} (h : floorOn r grid < c) :
    |(⟨c, grid⟩ : Decimal).toRat - magnitude r| =
      (c - floorOn r grid - restOn r grid) * 10 ^ grid := by
  have hCount : (floorOn r grid : ℚ) + 1 ≤ c := by exact_mod_cast h
  have hRest := restOn_lt_one r grid
  have hSub : (⟨c, grid⟩ : Decimal).toRat - magnitude r =
      (c - floorOn r grid - restOn r grid) * 10 ^ grid := by
    rw [magnitude_eq r grid, Decimal.toRat]
    ring
  rw [hSub, abs_of_nonneg (mul_nonneg (by linarith) (ten_zpow_pos grid).le)]

/-- The two neighbours of a magnitude on a grid. -/
def belowOn (r : Nat) (grid : Int) : Decimal := ⟨floorOn r grid, grid⟩

def aboveOn (r : Nat) (grid : Int) : Decimal := ⟨floorOn r grid + 1, grid⟩

theorem toRat_le_toRat {c c' : Nat} (h : c ≤ c') :
    (⟨c, grid⟩ : Decimal).toRat ≤ (⟨c', grid⟩ : Decimal).toRat :=
  mul_le_mul_of_nonneg_right (Nat.cast_le.2 h) (ten_zpow_pos grid).le

theorem below_le_magnitude (r : Nat) (grid : Int) : (belowOn r grid).toRat ≤ magnitude r := by
  have hRest := restOn_nonneg r grid
  rw [magnitude_eq r grid, Decimal.toRat, belowOn]
  exact mul_le_mul_of_nonneg_right (by linarith) (ten_zpow_pos grid).le

theorem magnitude_le_above (r : Nat) (grid : Int) : magnitude r ≤ (aboveOn r grid).toRat := by
  have hRest := restOn_lt_one r grid
  rw [magnitude_eq r grid, Decimal.toRat, aboveOn]
  push_cast
  exact mul_le_mul_of_nonneg_right (by linarith) (ten_zpow_pos grid).le

/-- If a multiple is rounded to a double, so is one of the neighbours, and that is as near. -/
theorem neighbour_of_nearest {c : Nat} (h : (⟨c, grid⟩ : Decimal).nearest = r) :
    ((belowOn r grid).nearest = r ∧
      |(belowOn r grid).toRat - magnitude r| ≤ |(⟨c, grid⟩ : Decimal).toRat - magnitude r|) ∨
    ((aboveOn r grid).nearest = r ∧
      |(aboveOn r grid).toRat - magnitude r| ≤ |(⟨c, grid⟩ : Decimal).toRat - magnitude r|) := by
  have hGrid := (ten_zpow_pos grid).le
  obtain hHigh | hLow := Nat.lt_or_ge (floorOn r grid) c
  · right
    refine ⟨le_antisymm ((Decimal.nearest_mono (toRat_le_toRat hHigh)).trans h.le)
      (Decimal.le_nearest_of_magnitude_le (magnitude_le_above r grid)), ?_⟩
    rw [aboveOn, abs_sub_magnitude_of_lt (Nat.lt_succ_self _), abs_sub_magnitude_of_lt hHigh]
    have hCount : ((floorOn r grid + 1 : Nat) : ℚ) ≤ c := Nat.cast_le.2 hHigh
    exact mul_le_mul_of_nonneg_right (by linarith) hGrid
  · left
    refine ⟨le_antisymm (Decimal.nearest_le_of_le_magnitude (below_le_magnitude r grid))
      (h.ge.trans (Decimal.nearest_mono (toRat_le_toRat hLow))), ?_⟩
    rw [belowOn, abs_sub_magnitude_of_le le_rfl, abs_sub_magnitude_of_le hLow]
    have hCount : (c : ℚ) ≤ floorOn r grid := Nat.cast_le.2 hLow
    exact mul_le_mul_of_nonneg_right (by linarith) hGrid

/-- A decimal is the nearest of the multiples of its grid that are rounded to a double. -/
structure NearestOn (r : Nat) (grid : Int) (d : Decimal) : Prop where
  exponent_eq : d.exponent = grid
  nearest_eq : d.nearest = r
  closest : ∀ c, (⟨c, grid⟩ : Decimal).nearest = r →
    |d.toRat - magnitude r| ≤ |(⟨c, grid⟩ : Decimal).toRat - magnitude r|

theorem nearestOnGrid_eq (h : r < infinityRank) :
    nearestOnGrid tie r grid =
      if (belowOn r grid).nearest = r then
        if (aboveOn r grid).nearest = r then
          match compare (2 * ((scaled r grid).1 % (scaled r grid).2)) (scaled r grid).2, tie with
          | .lt, _ => some (belowOn r grid)
          | .gt, _ => some (aboveOn r grid)
          | .eq, .upward => some (aboveOn r grid)
          | .eq, .toEven => some (if floorOn r grid % 2 = 0 then belowOn r grid else aboveOn r grid)
        else some (belowOn r grid)
      else if (aboveOn r grid).nearest = r then some (aboveOn r grid) else none := by
  simp only [nearestOnGrid, Decimal.rank_eq_iff h]
  rfl

/-- What is taken on a grid is a neighbour that is rounded to the double, and the nearer one if both
are. -/
theorem neighbour_of_nearestOnGrid (h : r < infinityRank)
    (hTaken : nearestOnGrid tie r grid = some d) :
    (d = belowOn r grid ∧ (belowOn r grid).nearest = r ∧
      ((aboveOn r grid).nearest = r → restOn r grid ≤ 1 - restOn r grid)) ∨
    (d = aboveOn r grid ∧ (aboveOn r grid).nearest = r ∧
      ((belowOn r grid).nearest = r → 1 - restOn r grid ≤ restOn r grid)) := by
  rw [nearestOnGrid_eq h] at hTaken
  simp only [← two_mul_rest_le_iff, ← le_two_mul_rest_iff]
  by_cases hBelow : (belowOn r grid).nearest = r <;>
    by_cases hAbove : (aboveOn r grid).nearest = r <;>
    simp only [hBelow, hAbove, if_true, if_false] at hTaken
  · split at hTaken
    · next hLess =>
        cases hTaken
        exact .inl ⟨rfl, hBelow, fun _ => (Nat.compare_eq_lt.1 hLess).le⟩
    · next hGreater =>
        cases hTaken
        exact .inr ⟨rfl, hAbove, fun _ => (Nat.compare_eq_gt.1 hGreater).le⟩
    · next hEqual =>
        cases hTaken
        exact .inr ⟨rfl, hAbove, fun _ => (Nat.compare_eq_eq.1 hEqual).ge⟩
    · next hEqual =>
        cases hTaken
        have hTie := Nat.compare_eq_eq.1 hEqual
        split_ifs
        · exact .inl ⟨rfl, hBelow, fun _ => hTie.le⟩
        · exact .inr ⟨rfl, hAbove, fun _ => hTie.ge⟩
  · cases hTaken
    exact .inl ⟨rfl, hBelow, fun h => absurd h hAbove⟩
  · cases hTaken
    exact .inr ⟨rfl, hAbove, fun h => absurd h hBelow⟩
  · cases hTaken

theorem nearestOn_of_nearestOnGrid (h : r < infinityRank)
    (hTaken : nearestOnGrid tie r grid = some d) : NearestOn r grid d := by
  have hGrid := (ten_zpow_pos grid).le
  have hBelow : |(belowOn r grid).toRat - magnitude r| = restOn r grid * 10 ^ grid := by
    rw [belowOn, abs_sub_magnitude_of_le le_rfl, sub_self, zero_add]
  have hAbove : |(aboveOn r grid).toRat - magnitude r| = (1 - restOn r grid) * 10 ^ grid := by
    rw [aboveOn, abs_sub_magnitude_of_lt (Nat.lt_succ_self _)]
    push_cast
    ring
  obtain ⟨rfl, hNearest, hTie⟩ | ⟨rfl, hNearest, hTie⟩ := neighbour_of_nearestOnGrid h hTaken
  · refine ⟨rfl, hNearest, fun c hc => ?_⟩
    obtain ⟨-, hNear⟩ | ⟨hOther, hNear⟩ := neighbour_of_nearest hc
    · exact hNear
    · refine le_trans ?_ hNear
      rw [hBelow, hAbove]
      exact mul_le_mul_of_nonneg_right (hTie hOther) hGrid
  · refine ⟨rfl, hNearest, fun c hc => ?_⟩
    obtain ⟨hOther, hNear⟩ | ⟨-, hNear⟩ := neighbour_of_nearest hc
    · refine le_trans ?_ hNear
      rw [hBelow, hAbove]
      exact mul_le_mul_of_nonneg_right (hTie hOther) hGrid
    · exact hNear

/-- Nothing is taken on a grid only if no multiple is rounded to the double. -/
theorem ne_of_nearestOnGrid_eq_none (h : r < infinityRank)
    (hNone : nearestOnGrid tie r grid = none) (c : Nat) : (⟨c, grid⟩ : Decimal).nearest ≠ r := by
  intro hc
  rw [nearestOnGrid_eq h] at hNone
  obtain ⟨hBelow, -⟩ | ⟨hAbove, -⟩ := neighbour_of_nearest hc
  · rw [if_pos hBelow] at hNone
    split at hNone
    · split at hNone <;> cases hNone
    · cases hNone
  · rw [if_pos hAbove] at hNone
    split at hNone
    · split at hNone <;> cases hNone
    · cases hNone

theorem ten_pow (k : Nat) : 10 ^ k = 5 ^ k * 2 ^ k := by rw [← Nat.mul_pow]

/-- On the grid of `10 ^ (-k)` the magnitudes in units of `2 ^ (-k)` are multiples. -/
theorem scaled_finest {k : Nat} (hUnits : unitsPerOne = 2 ^ k) (hPos : 0 < k) :
    (scaled r (-k)).1 / (scaled r (-k)).2 = units r * 5 ^ k := by
  have hGrid : ¬0 ≤ -(k : Int) := by omega
  rw [scaled, if_neg hGrid, neg_neg, Int.toNat_natCast, hUnits]
  calc units r * 10 ^ k / 2 ^ k = units r * 5 ^ k * 2 ^ k / 2 ^ k := by rw [ten_pow, mul_assoc]
    _ = units r * 5 ^ k := Nat.mul_div_cancel _ (Nat.two_pow_pos k)

theorem toRat_finest {k : Nat} (hUnits : unitsPerOne = 2 ^ k) :
    (⟨units r * 5 ^ k, -k⟩ : Decimal).toRat = magnitude r := by
  have hTen : (10 : ℚ) ^ k = 5 ^ k * 2 ^ k := by exact_mod_cast ten_pow k
  rw [Decimal.toRat, magnitude, hUnits, zpow_neg, zpow_natCast, hTen]
  push_cast
  field_simp

/-- A decimal that equals a magnitude is rounded to it, and nothing is nearer. -/
theorem nearestOn_of_toRat_eq (hExponent : d.exponent = grid) (h : d.toRat = magnitude r) :
    NearestOn r grid d where
  exponent_eq := hExponent
  nearest_eq := le_antisymm (Decimal.nearest_le_of_le_magnitude h.le)
    (Decimal.le_nearest_of_magnitude_le h.ge)
  closest c _ := by
    rw [h, sub_self, abs_zero]
    exact abs_nonneg _

/-- A decimal of a double on the coarsest grid that has any, from a first grid downward. -/
structure Coarsest (r : Nat) (start : Int) (d : Decimal) : Prop where
  le : d.exponent ≤ start
  nearestOn : NearestOn r d.exponent d
  coarsest : ∀ c g, d.exponent < g → g ≤ start → (⟨c, g⟩ : Decimal).nearest ≠ r

theorem coarsest_firstOnGrids (h : r < infinityRank) (count : Nat) (grid : Int)
    (hLast : grid - count = -1074) : Coarsest r grid (firstOnGrids tie r count grid) := by
  induction count generalizing grid with
  | zero =>
      obtain rfl : grid = -1074 := by omega
      have hFloor := scaled_finest (r := r) unitsPerOne_eq (by decide)
      have hExact := toRat_finest (r := r) unitsPerOne_eq
      rw [firstOnGrids]
      exact ⟨le_rfl, nearestOn_of_toRat_eq rfl (hFloor ▸ hExact),
        fun c g hLess hLe => absurd hLess hLe.not_gt⟩
  | succ count ih =>
      rw [firstOnGrids]
      split
      · next d hTaken =>
          have hNearest := nearestOn_of_nearestOnGrid h hTaken
          obtain rfl := hNearest.exponent_eq
          exact ⟨le_rfl, hNearest, fun c g hLess hLe => absurd hLess hLe.not_gt⟩
      · next hNone =>
          obtain ⟨hLe, hNearest, hCoarsest⟩ := ih (grid - 1) (by omega)
          refine ⟨by omega, hNearest, fun c g hLess hStart => ?_⟩
          obtain rfl | hFiner := hStart.eq_or_lt
          · exact ne_of_nearestOnGrid_eq_none h hNone c
          · exact hCoarsest c g hLess (by omega)

theorem units_rankBelow_two_pow (m : Nat) : units (rankBelow (2 ^ m)) = 2 ^ m := by
  rw [(inBinade_rankBelow (2 ^ m)).units_eq, Nat.log2_two_pow]
  exact Nat.div_mul_cancel (pow_dvd_pow 2 (Nat.sub_le m 52))

/-- The next magnitude does not go beyond the next power of two. -/
theorem units_succ_le (r : Nat) : units (r + 1) ≤ 2 ^ ((units r).log2 + 1) := by
  rw [← units_rankBelow_two_pow]
  apply units_strictMono.monotone
  rw [Nat.succ_le_iff, ← units_strictMono.lt_iff_lt, units_rankBelow_two_pow]
  exact Nat.lt_log2_self

theorem two_zpow_le_ten_zpow_of_nonneg {a b : Nat} (hPos : a ≠ 0) (hPower : 2 ^ a ≤ 10 ^ b)
    {n k : Int} (hn : 0 ≤ n) (h : n * b ≤ k * a) : (2 : ℚ) ^ n ≤ 10 ^ k := by
  have hBase : (2 : ℚ) ^ a ≤ 10 ^ b := by exact_mod_cast hPower
  rw [← pow_le_pow_iff_left₀ (zpow_pos (by norm_num) n).le (zpow_pos (by norm_num) k).le hPos]
  obtain ⟨n, rfl⟩ := Int.eq_ofNat_of_zero_le hn
  calc ((2 : ℚ) ^ (n : Int)) ^ a = (2 ^ a) ^ n := by rw [zpow_natCast, pow_right_comm]
    _ ≤ (10 ^ b) ^ n := pow_le_pow_left₀ (by positivity) hBase n
    _ = 10 ^ ((n : Int) * b) := by rw [← pow_mul, ← zpow_natCast]; push_cast; rw [mul_comm]
    _ ≤ 10 ^ (k * a) := zpow_le_zpow_right₀ (by norm_num) h
    _ = (10 ^ k) ^ a := by rw [zpow_mul, zpow_natCast]

theorem two_zpow_le_ten_zpow_of_nonpos {a b : Nat} (hPos : a ≠ 0) (hPower : 10 ^ b ≤ 2 ^ a)
    {n k : Int} (hn : n ≤ 0) (h : n * b ≤ k * a) : (2 : ℚ) ^ n ≤ 10 ^ k := by
  have hBase : (10 : ℚ) ^ b ≤ 2 ^ a := by exact_mod_cast hPower
  rw [← pow_le_pow_iff_left₀ (zpow_pos (by norm_num) n).le (zpow_pos (by norm_num) k).le hPos]
  calc ((2 : ℚ) ^ n) ^ a = (2 ^ a) ^ n := by rw [← zpow_natCast, ← zpow_natCast, zpow_comm]
    _ = ((2 ^ a) ^ (-n))⁻¹ := by rw [zpow_neg, inv_inv]
    _ ≤ ((10 ^ b) ^ (-n))⁻¹ := inv_anti₀ (by positivity)
        (zpow_le_zpow_left₀ (by omega) (by positivity) hBase)
    _ = (10 ^ b) ^ n := by rw [zpow_neg, inv_inv]
    _ = 10 ^ (n * b) := by rw [mul_comm, zpow_mul, zpow_natCast]
    _ ≤ 10 ^ (k * a) := zpow_le_zpow_right₀ (by norm_num) h
    _ = (10 ^ k) ^ a := by rw [zpow_mul, zpow_natCast]

/-- The first grid of the search lies above everything that is rounded to the double. -/
theorem magnitude_succ_le (r : Nat) : magnitude (r + 1) ≤ 10 ^ coarseGrid r := by
  have hUnits : (unitsPerOne : ℚ) = 2 ^ (1074 : Int) := by
    rw [unitsPerOne_eq, Nat.cast_pow, Nat.cast_ofNat, zpow_ofNat]
  have hNext : (units (r + 1) : ℚ) ≤ 2 ^ ((units r).log2 + 1 : Int) := by
    exact_mod_cast units_succ_le r
  -- These quotients enclose the logarithm of two in base ten.
  have hAbove : 2 ^ 100000 ≤ 10 ^ 30103 := by decide +kernel
  have hBelow : 10 ^ 8651 ≤ 2 ^ 28738 := by decide +kernel
  have hPower : (2 : ℚ) ^ ((units r).log2 + 1 - 1074 : Int) ≤ 10 ^ coarseGrid r := by
    unfold coarseGrid
    obtain hLarge | hSmall := le_total (0 : Int) ((units r).log2 + 1 - 1074)
    · exact two_zpow_le_ten_zpow_of_nonneg (by decide) hAbove hLarge (by push_cast; omega)
    · exact two_zpow_le_ten_zpow_of_nonpos (by decide) hBelow hSmall (by push_cast; omega)
  refine le_trans ?_ hPower
  rw [magnitude, hUnits, zpow_sub₀ (by norm_num)]
  exact div_le_div_of_nonneg_right hNext (by positivity)

theorem le_coarseGrid (r : Nat) : -1074 ≤ coarseGrid r := by
  unfold coarseGrid
  omega

/-- The search for the shortest decimal ends on the coarsest grid that has a decimal of the
double. -/
theorem coarsest_shortest (tie : Tie) (hPos : r ≠ 0) (h : r < infinityRank) :
    Coarsest r (coarseGrid r) (shortest tie r) := by
  have := le_coarseGrid r
  rw [shortest, if_neg hPos]
  exact coarsest_firstOnGrids h _ _ (by omega)

/-- The shortest decimal of a finite rank is rounded to that rank. -/
theorem nearest_shortest (tie : Tie) (h : r < infinityRank) : (shortest tie r).nearest = r := by
  by_cases hZero : r = 0
  · rw [shortest, if_pos hZero, hZero]
    exact Decimal.nearest_of_coefficient_eq_zero rfl
  · exact (coarsest_shortest tie hZero h).nearestOn.nearest_eq

end ArrowLisp.Number
