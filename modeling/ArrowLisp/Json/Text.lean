import ArrowLisp.Json
import ArrowLisp.Number.Text

/-!
JSON values as compact text, on one line and without blanks. Values that are refused are shown in
this form, and strings are written in it. It is assumed to be what a JSON library writes: members in
the order of their names, escapes only where the syntax asks for them, and doubles with the fewest
digits.
-/

namespace ArrowLisp.Json

/-- A digit of a hexadecimal number, in lower case. -/
def hexDigit (n : Nat) : Char := Nat.digitChar (n % 16)

/-- How a character is written inside a string: quote, backslash and control characters are
escaped, everything else stands for itself. -/
def escapeChar (c : Char) : List Char :=
  match c with
  | '"' => ['\\', '"']
  | '\\' => ['\\', '\\']
  | '\x08' => ['\\', 'b']
  | '\x0c' => ['\\', 'f']
  | '\n' => ['\\', 'n']
  | '\r' => ['\\', 'r']
  | '\t' => ['\\', 't']
  | c =>
    if c.toNat < 0x20 then ['\\', 'u', '0', '0', hexDigit (c.toNat / 16), hexDigit c.toNat]
    else [c]

/-- A string as JSON text. -/
def quote (s : String) : String := "\"" ++ String.ofList (s.toList.flatMap escapeChar) ++ "\""

/-- A finite double as JSON text, with the fewest digits that read back as the same double. It is
written plainly while its leading digit counts `10 ^ (-5)` to `10 ^ 15`, and elsewhere with an
exponent under its sign. -/
def doubleText (x : Float) : String :=
  let s := (Number.shortest .toEven (Number.rank x)).significand
  let magnitude :=
    if -5 ≤ s.exponent ∧ s.exponent ≤ 15 then s.plain
    else s.mantissa [] ++ 'e' :: (if s.exponent < 0 then '-' else '+') ::
      Nat.toDigits 10 s.exponent.natAbs
  let text := String.ofList magnitude
  if Number.isNegative x then "-" ++ text else text

mutual

/-- Write a value after a text. -/
def write : Json → String → String
  | .null, out => out ++ "null"
  | .bool b, out => out ++ if b then "true" else "false"
  | .int i, out => out ++ String.ofList (Number.integerText i)
  | .double x, out => out ++ doubleText x
  | .string s, out => out ++ quote s
  | .array [], out => out ++ "[]"
  | .array (item :: items), out => writeItems items (item.write (out ++ "["))
  | .object [], out => out ++ "\x7b\x7d"
  | .object ((name, value) :: members), out =>
    writeMembers members (value.write (out ++ "\x7b" ++ quote name ++ ":"))

/-- Write the items of an array after its first one, and close it. -/
def writeItems : List Json → String → String
  | [], out => out ++ "]"
  | item :: items, out => writeItems items (item.write (out ++ ","))

/-- Write the members of an object after its first one, and close it. -/
def writeMembers : List (String × Json) → String → String
  | [], out => out ++ "\x7d"
  | (name, value) :: members, out =>
    writeMembers members (value.write (out ++ "," ++ quote name ++ ":"))

end

/-- The text of a value. -/
def text (j : Json) : String := j.write ""

end ArrowLisp.Json
