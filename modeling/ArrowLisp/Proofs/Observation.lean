import ArrowLisp.Machine

/-!
What is seen of a run from outside. Of a closure it is only seen that it is one. Runs that are
given more and more steps show in the end what they come to, unless they go on forever.
-/

namespace ArrowLisp

/-- What is seen of the end of a run. Of a closure nothing is seen but that it is one. -/
inductive Observation (ε : Type) where
  | number (x : Float)
  | bool (b : Bool)
  | string (s : String)
  | primitive (op : Primitive)
  | closure
  | error (e : ε)
  | dangling
  | unfinished
deriving DecidableEq

def Outcome.observe {ε : Type} : Outcome ε → Observation ε
  | .value (.number x) => .number x
  | .value (.bool b) => .bool b
  | .value (.string s) => .string s
  | .value (.primitive op) => .primitive op
  | .value (.closure _) => .closure
  | .error e => .error e
  | .dangling => .dangling
  | .unfinished => .unfinished

theorem Outcome.observe_eq_error_iff {ε : Type} {o : Outcome ε} {e : ε} :
    o.observe = .error e ↔ o = .error e := by
  cases o with
  | value v => cases v <;> simp [observe]
  | error | dangling | unfinished => simp [observe]

theorem Outcome.observe_eq_unfinished_iff {ε : Type} {o : Outcome ε} :
    o.observe = .unfinished ↔ o = .unfinished := by
  cases o with
  | value v => cases v <;> simp [observe]
  | error | dangling | unfinished => simp [observe]

/-- It is seen whether a run has come to a value. -/
theorem Outcome.exists_value_of_observe_eq {ε : Type} {o : Outcome ε} {v : Value}
    (h : o.observe = (Outcome.value v).observe) : ∃ w, o = .value w := by
  cases o with
  | value w => exact ⟨w, rfl⟩
  | error | dangling | unfinished => cases v <;> cases h

/-- With enough steps a run ends, and this is then seen of it. What is seen is an end of the run and
not that it has been cut off. -/
def Eventually {ε : Type} (outcome : Nat → Outcome ε) (seen : Observation ε) : Prop :=
  seen ≠ .unfinished ∧ ∃ limit, (outcome limit).observe = seen

end ArrowLisp
