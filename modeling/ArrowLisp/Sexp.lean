/-!
Literal trees, the form in which a program is given. A tree is a number, a string, a truth value,
a symbol or a list of trees; which lists are programs is not decided here.
-/

namespace ArrowLisp

/-- A literal tree. Strings and symbols hold any text, quotes and blanks included. -/
inductive Sexp where
  | number (x : Float)
  | string (s : String)
  | bool (b : Bool)
  | symbol (s : String)
  | list (items : List Sexp)

namespace Sexp

instance : Inhabited Sexp := ⟨.list []⟩

/-- The text of a symbol; a string is not a symbol. -/
def symbol? : Sexp → Option String
  | .symbol s => some s
  | _ => none

/-- Whether a tree is the symbol with this text. -/
def isSymbol (text : String) : Sexp → Bool
  | .symbol s => s == text
  | _ => false

end Sexp

end ArrowLisp
