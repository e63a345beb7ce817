import ArrowLisp.Json
import ArrowLisp.Number.Scaling

/-!
Number literals. Without fraction and exponent, and within 64 bits, signed or unsigned, a literal
is an integer. Any other one is a double: as many of its digits as 64 bits hold are read as one
integer, and the power of ten is applied to the double nearest to this integer. That is what JSON
readers do that put speed before precision, and what is assumed of the reader of programs. It takes
a few roundings, so a double written with all its digits may be read as one of its neighbours.
Literals beyond the finite doubles have no value.
-/

namespace ArrowLisp.Json

/-- A number literal taken apart. -/
structure Numeral where
  negative : Bool
  /-- The digits before the point. -/
  whole : List Char
  /-- The digits after the point, if there is a point. -/
  fraction : Option (List Char)
  /-- The power of ten, if one is given. -/
  exponent : Option Int

namespace Numeral

/-- The number that decimal digits stand for. -/
def digitsValue (digits : List Char) : Nat := Nat.ofDigitChars 10 digits 0

/-- Digits, of which there has to be one, and what follows them. -/
def digits? (cs : List Char) : Option (List Char × List Char) :=
  match cs.span Char.isDigit with
  | ([], _) => none
  | (digits, rest) => some (digits, rest)

/-- The digits before the point, which start with a zero only if that is all, and what follows. -/
def whole? (cs : List Char) : Option (List Char × List Char) :=
  match digits? cs with
  | some ('0' :: _ :: _, _) => none
  | found => found

/-- The digits after a point, if a point comes next, and what follows. -/
def fraction? : List Char → Option (Option (List Char) × List Char)
  | '.' :: cs => (digits? cs).map fun (digits, rest) => (some digits, rest)
  | cs => some (none, cs)

/-- The value of an exponent after its letter, and what follows. -/
def signedDigits? : List Char → Option (Int × List Char)
  | '-' :: cs => (digits? cs).map fun (digits, rest) => (-digitsValue digits, rest)
  | '+' :: cs => (digits? cs).map fun (digits, rest) => (digitsValue digits, rest)
  | cs => (digits? cs).map fun (digits, rest) => (digitsValue digits, rest)

/-- An exponent, if its letter comes next, and what follows. -/
def exponent? : List Char → Option (Option Int × List Char)
  | 'e' :: cs => (signedDigits? cs).map fun (e, rest) => (some e, rest)
  | 'E' :: cs => (signedDigits? cs).map fun (e, rest) => (some e, rest)
  | cs => some (none, cs)

/-- The literal without its sign, which nothing may follow. -/
def unsigned? (negative : Bool) (cs : List Char) : Option Numeral := do
  let (whole, cs) ← whole? cs
  let (fraction, cs) ← fraction? cs
  let (exponent, cs) ← exponent? cs
  if cs.isEmpty then some ⟨negative, whole, fraction, exponent⟩ else none

def ofChars? : List Char → Option Numeral
  | '-' :: cs => unsigned? true cs
  | cs => unsigned? false cs

/-- The magnitude of a literal, exactly. -/
def magnitude (n : Numeral) : Number.Decimal :=
  let fraction := n.fraction.getD []
  ⟨digitsValue (n.whole ++ fraction), n.exponent.getD 0 - fraction.length⟩

/-- The integer that a literal stands for, if it is one of 64 bits. A negative zero is none. -/
def toInt? (n : Numeral) : Option Int :=
  if n.fraction.isSome ∨ n.exponent.isSome then none
  else
    let value := digitsValue n.whole
    if n.negative then
      if 0 < value ∧ value ≤ 0x8000000000000000 then some (-value) else none
    else if value < 0x10000000000000000 then some value
    else none

/-- The greatest integer of 64 bits. -/
def maxSignificand : Nat := 0xffffffffffffffff

/-- Read digits after a significand while it stays within 64 bits. The digits that are left over
begin with the first one that does not fit. -/
def accumulate (significand : Nat) : List Char → Nat × List Char
  | [] => (significand, [])
  | d :: ds =>
    let next := 10 * significand + (d.toNat - '0'.toNat)
    if next ≤ maxSignificand then accumulate next ds else (significand, d :: ds)

/-- The decimal that is kept of a literal. Of the digits left over, those before the point count as
powers of ten and those after it for nothing. -/
def kept (n : Numeral) : Number.Decimal :=
  let fraction := n.fraction.getD []
  let (significand, wholeLeft) := accumulate 0 n.whole
  let (significand, fractionLeft) := accumulate significand fraction
  ⟨significand,
    n.exponent.getD 0 + wholeLeft.length - (fraction.length - fractionLeft.length : Nat)⟩

/-- The double of a literal, `none` if it is beyond the finite ones. -/
def toFloat? (n : Numeral) : Option Float := n.kept.scaledRank?.map (Number.ofRank n.negative)

/-- The value of a literal, `none` if it is beyond the finite doubles. -/
def toJson? (n : Numeral) : Option Json :=
  match n.toInt? with
  | some i => some (.int i)
  | none => n.toFloat?.map .double

end Numeral

end ArrowLisp.Json
