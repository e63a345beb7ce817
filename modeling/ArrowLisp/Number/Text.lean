import ArrowLisp.Number.Shortest

/-!
Numbers as text. A decimal is written plainly (`120.5`) or with an exponent (`1.205E2`), and
`text` chooses between the two for the numbers of a program.
-/

namespace ArrowLisp.Number

/-- Digits with a decimal point after the first one, times a power of ten. -/
structure Significand where
  /-- The digits, without trailing zeros but for a single `0`. -/
  digits : List Char
  /-- The power of ten of the first digit. -/
  exponent : Int

/-- The digits of a list without its trailing zeros; a list of zeros keeps one. -/
def dropTrailingZeros (digits : List Char) : List Char :=
  match (digits.reverse.dropWhile (· == '0')).reverse with
  | [] => ['0']
  | kept => kept

/-- The significant digits of a decimal and the power of ten that the first one counts. -/
def Decimal.significand (d : Decimal) : Significand :=
  let digits := Nat.toDigits 10 d.coefficient
  ⟨dropTrailingZeros digits, d.exponent + (digits.length - 1 : Nat)⟩

namespace Significand

/-- Plain decimal text, with at least one digit on each side of the point. -/
def plain (s : Significand) : List Char :=
  if s.exponent < 0 then
    '0' :: '.' :: (List.replicate (-s.exponent - 1).toNat '0' ++ s.digits)
  else
    let whole := s.exponent.toNat + 1
    let fraction := s.digits.drop whole
    s.digits.take whole ++ List.replicate (whole - s.digits.length) '0' ++
      '.' :: (if fraction.isEmpty then ['0'] else fraction)

/-- The first digit and, after a point, the others; `alone` stands for them if there are none. -/
def mantissa (alone : List Char) (s : Significand) : List Char :=
  match s.digits with
  | [] => []
  | [d] => d :: alone
  | d :: others => d :: '.' :: others

end Significand

/-- The text of an integer: a minus sign if it is negative, then its digits. -/
def integerText (i : Int) : List Char :=
  if i < 0 then '-' :: Nat.toDigits 10 i.natAbs else Nat.toDigits 10 i.natAbs

/-- The rank of the least magnitude that is written plainly, that of one thousandth. -/
def leastPlainRank : Nat := (Decimal.mk 1 (-3)).rank

/-- The rank of the least magnitude from one thousandth up that is not written plainly. -/
def plainLimitRank : Nat := (Decimal.mk 1 7).rank

/-- The text of the magnitude of a finite rank: plain for zero and from one thousandth up to ten
million, elsewhere as in `1.0E7` with one nonzero digit before the point and a bare exponent. -/
def magnitudeText (r : Nat) : List Char :=
  let s := (shortest .upward r).significand
  if r = 0 ∨ (leastPlainRank ≤ r ∧ r < plainLimitRank) then s.plain
  else s.mantissa ['.', '0'] ++ 'E' :: integerText s.exponent

/-- The text of a number, with the fewest digits that read back as the same double. Zero keeps
its sign. -/
def text (x : Float) : String :=
  if infinityRank < rank x then "NaN"
  else
    let magnitude :=
      if rank x = infinityRank then "Infinity" else String.ofList (magnitudeText (rank x))
    if isNegative x then "-" ++ magnitude else magnitude

end ArrowLisp.Number
