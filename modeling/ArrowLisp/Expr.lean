import ArrowLisp.Literal

/-!
Expressions as trees. An arena holds an expression node by node; here it stands as a whole, without
numbers for its parts. The text of an expression is stated by recursion on the tree.
-/

namespace ArrowLisp

/-- An expression. Identifiers and parameters are of type `ν`: names of an interner, or texts. -/
inductive Expr (ν : Type) where
  | number (x : Float)
  | string (s : String)
  | bool (b : Bool)
  | identifier (name : ν)
  | conditional (condition consequent alternative : Expr ν)
  | lambda (params : List ν) (body : Expr ν)
  | apply (callee : Expr ν) (args : List (Expr ν))

namespace Expr

variable {ν μ : Type}

mutual

/-- Replace every identifier and every parameter. -/
def map (f : ν → μ) : Expr ν → Expr μ
  | .number x => .number x
  | .string s => .string s
  | .bool b => .bool b
  | .identifier name => .identifier (f name)
  | .conditional condition consequent alternative =>
    .conditional (condition.map f) (consequent.map f) (alternative.map f)
  | .lambda params body => .lambda (params.map f) (body.map f)
  | .apply callee args => .apply (callee.map f) (mapAll f args)

/-- `map` on every expression of a list. -/
def mapAll (f : ν → μ) : List (Expr ν) → List (Expr μ)
  | [] => []
  | e :: rest => e.map f :: mapAll f rest

end

@[simp]
theorem mapAll_eq_map (f : ν → μ) (es : List (Expr ν)) : mapAll f es = es.map (map f) := by
  induction es with
  | nil => rfl
  | cons e es ih => rw [mapAll, ih, List.map_cons]

mutual

/-- The text of an expression. A lambda without parameters keeps its arrow. -/
def text : Expr String → String
  | .number x => Literal.number x
  | .string s => Literal.string s
  | .bool b => Literal.bool b
  | .identifier name => name
  | .conditional condition consequent alternative =>
    "(if " ++ condition.text ++ " " ++ consequent.text ++ " " ++ alternative.text ++ ")"
  | .lambda params body => "(" ++ String.join (params.map (· ++ " ")) ++ "=> " ++ body.text ++ ")"
  | .apply callee args => "(" ++ callee.text ++ argsText args ++ ")"

/-- The texts of arguments, a space before each. -/
def argsText : List (Expr String) → String
  | [] => ""
  | arg :: rest => " " ++ arg.text ++ argsText rest

end

end Expr

end ArrowLisp
