import ArrowLisp.Primitive.Apply
import Mathlib

/-!
Which calls primitives answer, and what is said of the others. Every call has one answer. Where more
than one thing is wrong with a call, the number of its arguments counts before their kinds, and the
kinds count before the divisor.
-/

namespace ArrowLisp.Primitive

variable {op : Primitive} {args : List Value}

/-- The primitives that compute with two numbers. -/
def arithmetic : List Primitive := [.add, .subtract, .multiply, .divide, .atMost]

theorem mem_arithmetic_iff : op ∈ arithmetic ↔ op.isNumeric = true := by
  cases op <;> decide

/-- A double that is zero, of either sign. Not-a-number is none. -/
def IsZero (y : Float) : Prop := y = 0 ∨ y = -0

instance (y : Float) : Decidable (IsZero y) := inferInstanceAs (Decidable (y = 0 ∨ y = -0))

theorem beq_zero_iff {y : Float} : (y == 0) = true ↔ IsZero y := by
  have hZero : (0 : Float) ≠ Float.nan := by decide +kernel
  have hMinus : (-0 : Float) ≠ Float.nan := by decide +kernel
  rw [Float.beq_iff_ne_nan_and_eq]
  constructor
  · rintro ⟨-, -, hSame | ⟨hSame, -⟩ | ⟨hSame, -⟩⟩
    · exact Or.inl hSame
    · exact Or.inl hSame
    · exact Or.inr hSame
  · rintro (rfl | rfl)
    · exact ⟨hZero, hZero, Or.inl rfl⟩
    · exact ⟨hMinus, hZero, Or.inr (Or.inr ⟨rfl, rfl⟩)⟩

example : ¬IsZero Float.nan := by decide +kernel

/-- The calls that have a value. -/
inductive Accepts : Primitive → List Value → Prop where
  | equal (v w : Value) : Accepts .equal [v, w]
  | numbers {op : Primitive} (hOp : op ∈ arithmetic) (x : Float) {y : Float}
      (hDivisor : op = .divide → ¬IsZero y) : Accepts op [.number x, .number y]

/-- The values of calls. -/
inductive Gives : Primitive → List Value → Value → Prop where
  | equal (v w : Value) : Gives .equal [v, w] (.bool (v.equal w))
  | add (x y : Float) : Gives .add [.number x, .number y] (.number (x + y))
  | subtract (x y : Float) : Gives .subtract [.number x, .number y] (.number (x - y))
  | multiply (x y : Float) : Gives .multiply [.number x, .number y] (.number (x * y))
  | divide (x : Float) {y : Float} (hDivisor : ¬IsZero y) :
      Gives .divide [.number x, .number y] (.number (x / y))
  | atMost (x y : Float) : Gives .atMost [.number x, .number y] (.bool (x ≤ y))

/-- The message of a call of `error`. -/
inductive Says : List Value → String → Prop where
  | nothing : Says [] "error called"
  | string (s : String) : Says [.string s] s
  | values {args : List Value} (hSome : args ≠ []) (hString : ∀ s, args ≠ [.string s]) :
      Says args (" ".intercalate (args.map Value.serialize))

/-- What is said of the calls that have no value. -/
inductive Refuses : Primitive → List Value → EvalError → Prop where
  | error {args : List Value} {message : String} (h : Says args message) :
      Refuses .error args (.userError message)
  | noMatch {op : Primitive} {args : List Value} (hOp : op ≠ .error)
      (h : args.length ≠ 2 ∨ op = .constTrue ∨ op = .constFalse) :
      Refuses op args (.noMatchingPrimitive op.name args.length)
  | notNumbers {op : Primitive} (hOp : op ∈ arithmetic) {v w : Value}
      (h : (∀ x, v ≠ .number x) ∨ ∀ x, w ≠ .number x) :
      Refuses op [v, w] (.typeMismatch (.operandsNotNumbers op.name v.kind w.kind))
  | divisionByZero (x : Float) {y : Float} (h : IsZero y) :
      Refuses .divide [.number x, .number y] .divisionByZero

/-- What a call comes to. -/
inductive Answered (op : Primitive) (args : List Value) : Except EvalError Value → Prop where
  | ok {v : Value} (h : Gives op args v) : Answered op args (.ok v)
  | error {e : EvalError} (h : Refuses op args e) : Answered op args (.error e)

theorem says_errorMessage (args : List Value) : Says args (errorMessage args) := by
  unfold errorMessage
  split
  · exact .nothing
  · exact .string _
  · next hNothing hString => exact .values hNothing hString

theorem Says.eq_errorMessage {message : String} (h : Says args message) :
    message = errorMessage args := by
  cases h with
  | nothing => rfl
  | string => rfl
  | values hSome hString =>
      unfold errorMessage
      split
      · exact absurd rfl hSome
      · exact absurd rfl (hString _)
      · rfl

theorem answered_onNumbers (hOp : op.isNumeric = true) (x y : Float) :
    Answered op [.number x, .number y] (op.onNumbers x y) := by
  cases op with
  | equal | constTrue | constFalse | error => cases hOp
  | add => exact .ok (.add x y)
  | subtract => exact .ok (.subtract x y)
  | multiply => exact .ok (.multiply x y)
  | atMost => exact .ok (.atMost x y)
  | divide =>
      cases hDivisor : y == 0 with
      | true => simpa [onNumbers, hDivisor] using .error (.divisionByZero x (beq_zero_iff.1 hDivisor))
      | false =>
          have hNotZero : ¬IsZero y := fun h => by cases hDivisor.symm.trans (beq_zero_iff.2 h)
          simpa [onNumbers, hDivisor] using .ok (.divide x hNotZero)

/-- Every call has an answer: the checks are tried in the order in which they count. -/
theorem answered_apply (op : Primitive) (args : List Value) : Answered op args (op.apply args) := by
  by_cases hError : op = .error
  · subst hError
    exact .error (.error (says_errorMessage args))
  by_cases hLength : args.length = 2
  · obtain ⟨v, w, rfl⟩ := List.length_eq_two.1 hLength
    cases hNumeric : op.isNumeric with
    | true =>
        by_cases hArgs : (∀ x, v ≠ .number x) ∨ ∀ x, w ≠ .number x
        · rw [apply_notNumbers hNumeric hArgs]
          exact .error (.notNumbers (mem_arithmetic_iff.2 hNumeric) hArgs)
        · simp only [not_or, not_forall, not_not] at hArgs
          obtain ⟨⟨x, rfl⟩, y, rfl⟩ := hArgs
          rw [apply_numbers hNumeric]
          exact answered_onNumbers hNumeric x y
    | false =>
        cases op with
        | add | subtract | multiply | divide | atMost => cases hNumeric
        | error => exact absurd rfl hError
        | equal => exact .ok (.equal v w)
        | constTrue => exact .error (.noMatch hError (Or.inr (Or.inl rfl)))
        | constFalse => exact .error (.noMatch hError (Or.inr (Or.inr rfl)))
  · rw [apply_of_length_ne hError hLength]
    exact .error (.noMatch hError (Or.inl hLength))

theorem apply_eq_ok_iff {v : Value} : op.apply args = .ok v ↔ Gives op args v := by
  have hAnswered := answered_apply op args
  constructor
  · intro h
    rw [h] at hAnswered
    cases hAnswered with
    | ok hGives => exact hGives
  · intro h
    cases h with
    | equal | add | subtract | multiply | atMost => rfl
    | divide x hDivisor =>
        have hFalse := Bool.eq_false_iff.2 (mt beq_zero_iff.1 hDivisor)
        simp [apply_numbers (rfl : Primitive.divide.isNumeric = true), onNumbers, hFalse]

theorem apply_eq_error_iff {e : EvalError} : op.apply args = .error e ↔ Refuses op args e := by
  have hAnswered := answered_apply op args
  constructor
  · intro h
    rw [h] at hAnswered
    cases hAnswered with
    | error hRefuses => exact hRefuses
  · intro h
    cases h with
    | error hSays =>
        rw [hSays.eq_errorMessage]
        unfold apply
        rfl
    | noMatch hOp hNoMatch =>
        rcases hNoMatch with hLength | hConst
        · exact apply_of_length_ne hOp hLength
        · exact apply_of_const hConst args
    | notNumbers hOp hArgs => exact apply_notNumbers (mem_arithmetic_iff.1 hOp) hArgs
    | divisionByZero x hZero =>
        have hTrue := beq_zero_iff.2 hZero
        simp [apply_numbers (rfl : Primitive.divide.isNumeric = true), onNumbers, hTrue]

theorem accepts_iff : Accepts op args ↔ ∃ v, Gives op args v := by
  constructor
  · intro h
    cases h with
    | equal v w => exact ⟨_, .equal v w⟩
    | @numbers op hOp x y hDivisor =>
        cases op with
        | add => exact ⟨_, .add x y⟩
        | subtract => exact ⟨_, .subtract x y⟩
        | multiply => exact ⟨_, .multiply x y⟩
        | divide => exact ⟨_, .divide x (hDivisor rfl)⟩
        | atMost => exact ⟨_, .atMost x y⟩
        | equal | constTrue | constFalse | error => simp [arithmetic] at hOp
  · intro ⟨v, h⟩
    cases h with
    | equal v w => exact .equal v w
    | add x y | subtract x y | multiply x y | atMost x y =>
        exact .numbers (by decide) x fun h => by cases h
    | divide x hDivisor => exact .numbers (by decide) x fun _ => hDivisor

/-- Calls that compute with two numbers always are among those that `onNumbers` is made for. -/
theorem onNumbers_ne_noMatch (hOp : op.isNumeric = true) (x y : Float) (name : String)
    (count : Nat) : op.onNumbers x y ≠ .error (.noMatchingPrimitive name count) := by
  intro h
  have hRefuses := apply_eq_error_iff.1 ((apply_numbers hOp x y).trans h)
  cases hRefuses with
  | noMatch hError hArgs =>
      rcases hArgs with hLength | rfl | rfl
      · exact hLength rfl
      · cases hOp
      · cases hOp

/-- Dispatch. A call has a value exactly if it has two arguments and either the primitive is `equal?`
or it computes with numbers, both arguments are numbers and a divisor is not zero. Every other call
fails, with the first thing that is wrong with it. -/
theorem apply_accepts_or_refuses (op : Primitive) (args : List Value) :
    ((∃ v, op.apply args = .ok v) ↔ Accepts op args) ∧
    (∀ v, op.apply args = .ok v ↔ Gives op args v) ∧
    (∀ e, op.apply args = .error e ↔ Refuses op args e) ∧
    (op.isNumeric = true → ∀ x y name count,
      op.onNumbers x y ≠ .error (.noMatchingPrimitive name count)) := by
  have hValue : (∃ v, op.apply args = .ok v) ↔ Accepts op args := by
    rw [accepts_iff]
    exact exists_congr fun v => apply_eq_ok_iff
  exact ⟨hValue, fun v => apply_eq_ok_iff, fun e => apply_eq_error_iff, onNumbers_ne_noMatch⟩

end ArrowLisp.Primitive
