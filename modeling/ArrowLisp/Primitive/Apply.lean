import ArrowLisp.Error
import ArrowLisp.Value

/-!
What the primitives do to values. All but `error` take exactly two arguments.
-/

namespace ArrowLisp.Primitive

/-- The message of an `error` call: a lone string as it is, anything else as values are shown. -/
def errorMessage : List Value → String
  | [] => "error called"
  | [.string s] => s
  | args => " ".intercalate (args.map Value.serialize)

/-- Apply an operation on two numbers. A zero divisor of either sign is refused, and every other
operation behaves as it does on doubles. -/
def onNumbers (op : Primitive) (x y : Float) : Except EvalError Value :=
  match op with
  | .add => .ok (.number (x + y))
  | .subtract => .ok (.number (x - y))
  | .multiply => .ok (.number (x * y))
  | .divide => if y == 0 then .error .divisionByZero else .ok (.number (x / y))
  | .atMost => .ok (.bool (x ≤ y))
  | .equal | .constTrue | .constFalse | .error => .error (.noMatchingPrimitive op.name 2)

/-- Whether a primitive computes with numbers only. -/
def isNumeric : Primitive → Bool
  | .add | .subtract | .multiply | .divide | .atMost => true
  | .equal | .constTrue | .constFalse | .error => false

/-- Apply a primitive to arguments that are already values. -/
def apply (op : Primitive) (args : List Value) : Except EvalError Value :=
  match op, args with
  | .error, args => .error (.userError (errorMessage args))
  | .equal, [left, right] => .ok (.bool (left.equal right))
  | op, [left, right] =>
    if op.isNumeric then
      match left, right with
      | .number x, .number y => op.onNumbers x y
      | _, _ => .error (.typeMismatch (.operandsNotNumbers op.name left.kind right.kind))
    else .error (.noMatchingPrimitive op.name 2)
  | op, args => .error (.noMatchingPrimitive op.name args.length)

variable {op : Primitive} {args : List Value} {v w : Value}

theorem apply_of_length_ne (hOp : op ≠ .error) (hLength : args.length ≠ 2) :
    op.apply args = .error (.noMatchingPrimitive op.name args.length) := by
  unfold apply
  split <;> simp_all

theorem apply_of_const (hOp : op = .constTrue ∨ op = .constFalse) (args : List Value) :
    op.apply args = .error (.noMatchingPrimitive op.name args.length) := by
  rcases hOp with rfl | rfl <;> unfold apply <;> split <;> simp_all [isNumeric]

theorem apply_numbers (hOp : op.isNumeric = true) (x y : Float) :
    op.apply [.number x, .number y] = op.onNumbers x y := by
  cases op with
  | equal | constTrue | constFalse | error => cases hOp
  | add | subtract | multiply | divide | atMost => rfl

theorem apply_notNumbers (hOp : op.isNumeric = true)
    (hArgs : (∀ x, v ≠ .number x) ∨ ∀ x, w ≠ .number x) :
    op.apply [v, w] = .error (.typeMismatch (.operandsNotNumbers op.name v.kind w.kind)) := by
  cases op with
  | equal | constTrue | constFalse | error => cases hOp
  | add | subtract | multiply | divide | atMost =>
      cases v <;> cases w <;> first | rfl | simp at hArgs

end ArrowLisp.Primitive
