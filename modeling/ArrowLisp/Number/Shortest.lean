import ArrowLisp.Number.Decimal

/-!
The shortest decimal of a double: of the decimals that round to it, one with the fewest digits,
and of several such decimals the nearest. The search goes over the grids of multiples of `10 ^ g`,
coarse ones first. On a grid only the two neighbours of the double can round to it, unless a
coarser grid has served already.
-/

namespace ArrowLisp.Number

/-- Which of two decimals to take when a double is exactly halfway between them. -/
inductive Tie where
  | upward
  | toEven

/-- The magnitude of rank `r` divided by `10 ^ grid`, as a numerator and a denominator. -/
def scaled (r : Nat) (grid : Int) : Nat × Nat :=
  if 0 ≤ grid then (units r, unitsPerOne * Nat.pow 10 grid.toNat)
  else (units r * Nat.pow 10 (-grid).toNat, unitsPerOne)

/-- Of the two multiples of `10 ^ grid` around rank `r`, the nearer one that rounds to `r`. -/
def nearestOnGrid (tie : Tie) (r : Nat) (grid : Int) : Option Decimal :=
  let (numerator, denominator) := scaled r grid
  let floor := numerator / denominator
  let below : Decimal := ⟨floor, grid⟩
  let above : Decimal := ⟨floor + 1, grid⟩
  if below.rank = r then
    if above.rank = r then
      match compare (2 * (numerator % denominator)) denominator, tie with
      | .lt, _ => some below
      | .gt, _ => some above
      | .eq, .upward => some above
      | .eq, .toEven => some (if floor % 2 = 0 then below else above)
    else some below
  else if above.rank = r then some above else none

/-- The first grid, from `grid` downward through `count` grids, on which a multiple rounds to
rank `r`. The grid after these is taken to hold the double itself. -/
def firstOnGrids (tie : Tie) (r : Nat) : Nat → Int → Decimal
  | 0, grid => ⟨(scaled r grid).1 / (scaled r grid).2, grid⟩
  | count + 1, grid =>
    match nearestOnGrid tie r grid with
    | some d => d
    | none => firstOnGrids tie r count (grid - 1)

/-- A grid at least as coarse as the leading decimal digit of rank `r`. The constant exceeds
the logarithm of two in base ten by less than the rounding that the last term makes good. -/
def coarseGrid (r : Nat) : Int :=
  ((units r).log2 + 1 - 1074 : Int) * 30103 / 100000 + 1

/-- The shortest decimal of rank `r`. Every double is a multiple of `10 ^ (-1074)`, so the search
ends on that grid at the latest. -/
def shortest (tie : Tie) (r : Nat) : Decimal :=
  if r = 0 then ⟨0, 0⟩
  else firstOnGrids tie r (coarseGrid r + 1074).toNat (coarseGrid r)

end ArrowLisp.Number
