import ArrowLisp.Primitive.Apply
import Mathlib

/-!
Equality as programs see it. It is symmetric and transitive, never holds between values of two
kinds, and every value is equal to itself with the one exception of not-a-number.
-/

namespace ArrowLisp.Value

/-- What makes two values equal, kind by kind. -/
inductive Equals : Value → Value → Prop where
  | number {x y : Float} (h : (x == y) = true) : Equals (.number x) (.number y)
  | bool (b : Bool) : Equals (.bool b) (.bool b)
  | string (s : String) : Equals (.string s) (.string s)
  | primitive (op : Primitive) : Equals (.primitive op) (.primitive op)
  | closure {c d : Closure Value} (h : c.identity = d.identity) :
      Equals (.closure c) (.closure d)

variable {u v w : Value}

theorem equal_iff : v.equal w = true ↔ v.Equals w := by
  constructor
  · intro h
    cases v with
    | number x =>
        cases w with
        | number y => exact .number h
        | _ => cases h
    | bool b =>
        cases w with
        | bool b' => obtain rfl := beq_iff_eq.1 h; exact .bool b
        | _ => cases h
    | string s =>
        cases w with
        | string s' => obtain rfl := beq_iff_eq.1 h; exact .string s
        | _ => cases h
    | primitive op =>
        cases w with
        | primitive op' => obtain rfl := of_decide_eq_true h; exact .primitive op
        | _ => cases h
    | closure c =>
        cases w with
        | closure d => exact .closure (of_decide_eq_true h)
        | _ => cases h
  · intro h
    cases h with
    | number h => exact h
    | bool b => exact beq_self_eq_true b
    | string s => exact beq_self_eq_true s
    | primitive op => exact decide_eq_true rfl
    | closure h => exact decide_eq_true h

theorem equal_symm (h : v.equal w = true) : w.equal v = true := by
  rw [equal_iff] at h ⊢
  cases h with
  | number h => exact .number (BEq.symm h)
  | closure h => exact .closure h.symm
  | _ => constructor

theorem equal_trans (h : u.equal v = true) (h' : v.equal w = true) : u.equal w = true := by
  rw [equal_iff] at h h' ⊢
  cases h with
  | number h =>
      cases h' with
      | number h' => exact .number (BEq.trans h h')
  | closure h =>
      cases h' with
      | closure h' => exact .closure (h.trans h')
  | _ => exact h'

theorem kind_eq_of_equal (h : v.equal w = true) : v.kind = w.kind := by
  cases equal_iff.1 h <;> rfl

theorem equal_self_iff : v.equal v = true ↔ ∀ x, v = .number x → x.isNaN = false := by
  rw [equal_iff]
  constructor
  · rintro h x rfl
    cases h with
    | number h => simpa [Float.isNaN_eq_decide_eq_nan] using Float.beq_self_iff.1 h
  · intro h
    cases v with
    | number x =>
        have hNumber := h x rfl
        exact .number (Float.beq_self_iff.2 (by simpa [Float.isNaN_eq_decide_eq_nan] using hNumber))
    | closure c => exact .closure rfl
    | _ => constructor

end ArrowLisp.Value
