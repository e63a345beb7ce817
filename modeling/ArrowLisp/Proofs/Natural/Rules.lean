import ArrowLisp.Error
import ArrowLisp.Expr
import ArrowLisp.Primitive
import Mathlib.Logic.Function.Basic

/-!
Evaluation by rules, on expressions as trees. Nothing is stored: the body of a procedure is a tree
and a scope is a function that gives some identifiers a meaning. Rules say what is evaluated and in
which order, errors included, and a run without an end has no derivation.
-/

namespace ArrowLisp

/-- What an expression means, with `ν` for its identifiers. -/
inductive Datum (ν : Type) where
  | number (x : Float)
  | bool (b : Bool)
  | string (s : String)
  | primitive (op : Primitive)
  /-- A lambda and what each identifier meant where it was evaluated. The identity tells which
  evaluation that was. -/
  | procedure (identity : Nat) (params : List ν) (body : Expr ν) (scope : ν → Option (Datum ν))

namespace Datum

variable {ν : Type}

/-- The name of a datum's kind. -/
def kind : Datum ν → String
  | number _ => "number"
  | bool _ => "boolean"
  | string _ => "string"
  | primitive _ => "primitive"
  | procedure _ _ _ _ => "closure"

/-- Whether a datum can be applied to arguments. -/
def isCallable : Datum ν → Bool
  | primitive _ | procedure _ _ _ _ => true
  | number _ | bool _ | string _ => false

/-- The number that a datum is. -/
def number? : Datum ν → Option Float
  | number x => some x
  | bool _ | string _ | primitive _ | procedure _ _ _ _ => none

/-- The text of a datum. Primitives and procedures do not show which one they are. -/
def serialize : Datum ν → String
  | number x => Literal.number x
  | bool b => Literal.bool b
  | string s => Literal.string s
  | primitive _ => "#<primop>"
  | procedure _ _ _ _ => "#<procedure>"

/-- Equality as `equal?` sees it. -/
def equal : Datum ν → Datum ν → Bool
  | number x, number y => x == y
  | bool a, bool b => a == b
  | string s, string t => s == t
  | primitive p, primitive q => p = q
  | procedure i _ _ _, procedure j _ _ _ => i = j
  | _, _ => false

/-- The message that `error` raises with these arguments. -/
def errorMessage : List (Datum ν) → String
  | [] => "error called"
  | [string s] => s
  | ds => " ".intercalate (ds.map serialize)

end Datum

namespace Natural

variable {ν : Type}

/-- What a primitive answers. All but `error` need two arguments, and the two truth values that are
primitives answer to no arguments at all. -/
inductive Answers : Primitive → List (Datum ν) → Except EvalError (Datum ν) → Prop where
  | error (ds : List (Datum ν)) : Answers .error ds (.error (.userError (Datum.errorMessage ds)))
  | equal (d e : Datum ν) : Answers .equal [d, e] (.ok (.bool (d.equal e)))
  | add (x y : Float) : Answers .add [.number x, .number y] (.ok (.number (x + y)))
  | subtract (x y : Float) : Answers .subtract [.number x, .number y] (.ok (.number (x - y)))
  | multiply (x y : Float) : Answers .multiply [.number x, .number y] (.ok (.number (x * y)))
  | atMost (x y : Float) : Answers .atMost [.number x, .number y] (.ok (.bool (x ≤ y)))
  | divide (x y : Float) (hDivisor : (y == 0) = false) :
      Answers .divide [.number x, .number y] (.ok (.number (x / y)))
  | divisionByZero (x y : Float) (hDivisor : (y == 0) = true) :
      Answers .divide [.number x, .number y] (.error .divisionByZero)
  | notNumbers {op : Primitive} {d e : Datum ν}
      (hOp : op ∈ [.add, .subtract, .multiply, .divide, .atMost])
      (hKinds : d.number? = none ∨ e.number? = none) :
      Answers op [d, e] (.error (.typeMismatch (.operandsNotNumbers op.name d.kind e.kind)))
  | noMatch {op : Primitive} {ds : List (Datum ν)} (hOp : op ≠ .error)
      (hArgs : ds.length ≠ 2 ∨ op = .constTrue ∨ op = .constFalse) :
      Answers op ds (.error (.noMatchingPrimitive op.name ds.length))

/-- The meaning of some identifiers. -/
abbrev Scope (ν : Type) := ν → Option (Datum ν)

/-- A scope in which names have been bound one after another, by position. -/
def Scope.bind [DecidableEq ν] (ρ : Scope ν) (names : List ν) (ds : List (Datum ν)) : Scope ν :=
  (names.zip ds).foldl (fun ρ (name, d) => Function.update ρ name (some d)) ρ

/-- What a derivation is about. -/
inductive Job (ν : Type) where
  /-- Evaluate an expression. -/
  | eval (ρ : Scope ν) (e : Expr ν)
  /-- Evaluate the arguments that are left and apply a callee to these and those done before. -/
  | evalArgs (ρ : Scope ν) (callee : Datum ν) (done : List (Datum ν)) (rest : List (Expr ν))
  /-- Apply a datum to arguments. -/
  | call (callee : Datum ν) (args : List (Datum ν))

/-- A job comes to a meaning or to an error. Lambdas are counted as they are evaluated: the numbers
on the two sides of the result are the count before and after. `spell` gives the text of an
identifier, which is only looked at if the identifier means nothing. -/
inductive Derives [DecidableEq ν] (spell : ν → String) :
    Job ν → Nat → Except EvalError (Datum ν) → Nat → Prop where
  | number {ρ : Scope ν} {x : Float} {n : Nat} :
      Derives spell (.eval ρ (.number x)) n (.ok (.number x)) n
  | string {ρ : Scope ν} {s : String} {n : Nat} :
      Derives spell (.eval ρ (.string s)) n (.ok (.string s)) n
  | bool {ρ : Scope ν} {b : Bool} {n : Nat} :
      Derives spell (.eval ρ (.bool b)) n (.ok (.bool b)) n
  | identifier {ρ : Scope ν} {x : ν} {d : Datum ν} {n : Nat} (hMeans : ρ x = some d) :
      Derives spell (.eval ρ (.identifier x)) n (.ok d) n
  | unbound {ρ : Scope ν} {x : ν} {n : Nat} (hMeans : ρ x = none) :
      Derives spell (.eval ρ (.identifier x)) n (.error (.unboundIdentifier (spell x))) n
  | consequent {ρ : Scope ν} {c t e : Expr ν} {n m k : Nat} {r : Except EvalError (Datum ν)}
      (hCondition : Derives spell (.eval ρ c) n (.ok (.bool true)) m)
      (hBranch : Derives spell (.eval ρ t) m r k) :
      Derives spell (.eval ρ (.conditional c t e)) n r k
  | alternative {ρ : Scope ν} {c t e : Expr ν} {n m k : Nat} {r : Except EvalError (Datum ν)}
      (hCondition : Derives spell (.eval ρ c) n (.ok (.bool false)) m)
      (hBranch : Derives spell (.eval ρ e) m r k) :
      Derives spell (.eval ρ (.conditional c t e)) n r k
  | conditionFails {ρ : Scope ν} {c t e : Expr ν} {n m : Nat} {err : EvalError}
      (hCondition : Derives spell (.eval ρ c) n (.error err) m) :
      Derives spell (.eval ρ (.conditional c t e)) n (.error err) m
  | conditionNotBool {ρ : Scope ν} {c t e : Expr ν} {n m : Nat} {d : Datum ν}
      (hCondition : Derives spell (.eval ρ c) n (.ok d) m) (hKind : ∀ b, d ≠ .bool b) :
      Derives spell (.eval ρ (.conditional c t e)) n
        (.error (.typeMismatch (.conditionNotBool d.kind))) m
  | lambda {ρ : Scope ν} {params : List ν} {body : Expr ν} {n : Nat} :
      Derives spell (.eval ρ (.lambda params body)) n (.ok (.procedure n params body ρ)) (n + 1)
  | apply {ρ : Scope ν} {f : Expr ν} {args : List (Expr ν)} {n m k : Nat} {d : Datum ν}
      {r : Except EvalError (Datum ν)} (hCallee : Derives spell (.eval ρ f) n (.ok d) m)
      (hCallable : d.isCallable = true) (hArgs : Derives spell (.evalArgs ρ d [] args) m r k) :
      Derives spell (.eval ρ (.apply f args)) n r k
  | calleeFails {ρ : Scope ν} {f : Expr ν} {args : List (Expr ν)} {n m : Nat} {err : EvalError}
      (hCallee : Derives spell (.eval ρ f) n (.error err) m) :
      Derives spell (.eval ρ (.apply f args)) n (.error err) m
  | notCallable {ρ : Scope ν} {f : Expr ν} {args : List (Expr ν)} {n m : Nat} {d : Datum ν}
      (hCallee : Derives spell (.eval ρ f) n (.ok d) m) (hCallable : d.isCallable = false) :
      Derives spell (.eval ρ (.apply f args)) n (.error (.typeMismatch (.notCallable d.kind))) m
  | argsDone {ρ : Scope ν} {f : Datum ν} {ds : List (Datum ν)} {n m : Nat}
      {r : Except EvalError (Datum ν)} (hCall : Derives spell (.call f ds) n r m) :
      Derives spell (.evalArgs ρ f ds []) n r m
  | argsNext {ρ : Scope ν} {f d : Datum ν} {ds : List (Datum ν)} {e : Expr ν}
      {rest : List (Expr ν)} {n m k : Nat} {r : Except EvalError (Datum ν)}
      (hArg : Derives spell (.eval ρ e) n (.ok d) m)
      (hRest : Derives spell (.evalArgs ρ f (ds ++ [d]) rest) m r k) :
      Derives spell (.evalArgs ρ f ds (e :: rest)) n r k
  | argFails {ρ : Scope ν} {f : Datum ν} {ds : List (Datum ν)} {e : Expr ν}
      {rest : List (Expr ν)} {n m : Nat} {err : EvalError}
      (hArg : Derives spell (.eval ρ e) n (.error err) m) :
      Derives spell (.evalArgs ρ f ds (e :: rest)) n (.error err) m
  | primitive {op : Primitive} {ds : List (Datum ν)} {n : Nat} {r : Except EvalError (Datum ν)}
      (hAnswers : Answers op ds r) : Derives spell (.call (.primitive op) ds) n r n
  | procedure {i : Nat} {params : List ν} {body : Expr ν} {ρ : Scope ν} {ds : List (Datum ν)}
      {n m : Nat} {r : Except EvalError (Datum ν)} (hArity : params.length = ds.length)
      (hBody : Derives spell (.eval (ρ.bind params ds) body) n r m) :
      Derives spell (.call (.procedure i params body ρ) ds) n r m
  | wrongArity {i : Nat} {params : List ν} {body : Expr ν} {ρ : Scope ν} {ds : List (Datum ν)}
      {n : Nat} (hArity : params.length ≠ ds.length) :
      Derives spell (.call (.procedure i params body ρ) ds) n
        (.error (.arityMismatch params.length ds.length)) n
  | callNotCallable {d : Datum ν} {ds : List (Datum ν)} {n : Nat}
      (hCallable : d.isCallable = false) :
      Derives spell (.call d ds) n (.error (.typeMismatch (.notCallable d.kind))) n

/-- A primitive has one answer to its arguments. -/
theorem Answers.unique {op : Primitive} {ds : List (Datum ν)} {r r' : Except EvalError (Datum ν)}
    (h : Answers op ds r) (h' : Answers op ds r') : r = r' := by
  cases h <;> cases h' <;> grind [Datum.number?]

end Natural

end ArrowLisp
