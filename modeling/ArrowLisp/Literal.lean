import ArrowLisp.Number.Text

/-!
The text of literals, the same wherever one is shown: in literal trees, in programs and among
values.
-/

namespace ArrowLisp.Literal

/-- The text of a truth value. -/
def bool (b : Bool) : String := if b then "true" else "false"

/-- A string between quotes. Nothing inside is escaped, not even a quote. -/
def string (s : String) : String := "\"" ++ s ++ "\""

/-- The text of a number. -/
def number (x : Float) : String := Number.text x

end ArrowLisp.Literal
