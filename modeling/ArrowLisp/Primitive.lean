/-!
The built-in operations, as names. What they do to values is said where values are.
-/

namespace ArrowLisp

/-- A built-in operation. -/
inductive Primitive where
  | add
  | subtract
  | multiply
  | divide
  | atMost
  | equal
  /-- The name `true` in a program that spells it as a symbol; it answers no call. -/
  | constTrue
  /-- The name `false` in a program that spells it as a symbol; it answers no call. -/
  | constFalse
  | error
deriving DecidableEq, Repr

namespace Primitive

/-- Every primitive, in the order in which the outermost environment binds them. -/
def all : List Primitive :=
  [.add, .subtract, .multiply, .divide, .atMost, .equal, .constTrue, .constFalse, .error]

/-- The identifier that a primitive is bound to. -/
def name : Primitive → String
  | .add => "+"
  | .subtract => "-"
  | .multiply => "*"
  | .divide => "/"
  | .atMost => "<="
  | .equal => "equal?"
  | .constTrue => "true"
  | .constFalse => "false"
  | .error => "error"

/-- The primitive of a name. -/
def ofName? (s : String) : Option Primitive := all.find? (·.name == s)

end Primitive

end ArrowLisp
