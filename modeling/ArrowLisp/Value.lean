import ArrowLisp.Arena
import ArrowLisp.Environment
import ArrowLisp.Literal
import ArrowLisp.Primitive

/-!
Values of programs. A closure keeps the environment and the arena of the lambda that made it and,
besides, a number of its own: two closures are the same value only if they were made at once.
-/

namespace ArrowLisp

/-- A lambda together with the place where it was evaluated, over values of type `α`. -/
structure Closure (α : Type) where
  /-- Which evaluation of a lambda made this closure. -/
  identity : Nat
  params : List Name
  body : NodeId
  env : Environment α
  arena : Arena

/-- What an expression evaluates to. -/
inductive Value where
  | number (x : Float)
  | bool (b : Bool)
  | string (s : String)
  | primitive (op : Primitive)
  | closure (c : Closure Value)

namespace Value

instance : Inhabited Value := ⟨.bool false⟩

/-- The name of a value's kind. -/
def kind : Value → String
  | .number _ => "number"
  | .bool _ => "boolean"
  | .string _ => "string"
  | .primitive _ => "primitive"
  | .closure _ => "closure"

/-- Whether a value may stand in callee position. -/
def isCallable : Value → Bool
  | .primitive _ | .closure _ => true
  | .number _ | .bool _ | .string _ => false

/-- The text of a value. Operations and closures of all sorts look alike. -/
def serialize : Value → String
  | .number x => Literal.number x
  | .bool b => Literal.bool b
  | .string s => Literal.string s
  | .primitive _ => "#<primop>"
  | .closure _ => "#<procedure>"

/-- Equality as programs see it: numbers by value, so that `0.0` equals `-0.0` and not-a-number
nothing; closures by identity; values of two kinds never. -/
def equal : Value → Value → Bool
  | .number x, .number y => x == y
  | .bool a, .bool b => a == b
  | .string s, .string t => s == t
  | .primitive p, .primitive q => p = q
  | .closure c, .closure d => c.identity = d.identity
  | _, _ => false

end Value

/-- The outermost environment: one frame that binds every primitive to its own name. -/
def Interner.topEnvironment (i : Interner) : Environment Value × Interner :=
  let (names, i) := i.internAll (Primitive.all.map Primitive.name)
  (Environment.empty.withFrame (names.zip (Primitive.all.map .primitive)), i)

end ArrowLisp
