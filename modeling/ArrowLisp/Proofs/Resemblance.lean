import ArrowLisp.Primitive.Apply
import Mathlib.Data.List.Forall2
import Mathlib.Logic.Relator

/-!
Values that look the same to primitives: equal but for closures, of which only the identities are
compared. Primitives answer the same to such values, and what is shown of them is the same.
-/

namespace ArrowLisp

variable {B : Nat → Nat → Prop}

/-- Values of one kind with the same content. Of closures only the identities are looked at, and
`B` pairs these. -/
inductive Value.Resembles (B : Nat → Nat → Prop) : Value → Value → Prop where
  | number (x : Float) : Resembles B (.number x) (.number x)
  | bool (b : Bool) : Resembles B (.bool b) (.bool b)
  | string (s : String) : Resembles B (.string s) (.string s)
  | primitive (op : Primitive) : Resembles B (.primitive op) (.primitive op)
  | closure {c d : Closure Value} (hIdentity : B c.identity d.identity) :
      Resembles B (.closure c) (.closure d)

namespace Value.Resembles

variable {v w v' w' : Value}

theorem kind_eq (h : v.Resembles B w) : v.kind = w.kind := by
  cases h <;> rfl

theorem isCallable_eq (h : v.Resembles B w) : v.isCallable = w.isCallable := by
  cases h <;> rfl

theorem serialize_eq (h : v.Resembles B w) : v.serialize = w.serialize := by
  cases h <;> rfl

/-- Closures are equal if those that stand for them are. -/
theorem equal_eq (hUnique : Relator.BiUnique B) (h : v.Resembles B w) (h' : v'.Resembles B w') :
    v.equal v' = w.equal w' := by
  cases h with
  | closure hIdentity =>
      cases h' with
      | closure hIdentity' =>
          simp only [equal, decide_eq_decide]
          exact Relator.rel_eq hUnique hIdentity hIdentity'
      | _ => rfl
  | _ => cases h' <;> rfl

end Value.Resembles

namespace Primitive

variable {vs ws : List Value}

/-- `error` says the same of values that look the same. -/
theorem errorMessage_eq_of_resembles (h : List.Forall₂ (Value.Resembles B) vs ws) :
    errorMessage vs = errorMessage ws := by
  have hTexts : vs.map Value.serialize = ws.map Value.serialize := by
    induction h with
    | nil => rfl
    | cons hHead _ ih => rw [List.map_cons, List.map_cons, hHead.serialize_eq, ih]
  cases h with
  | nil => rfl
  | cons hHead hTail =>
      cases hTail with
      | nil => cases hHead <;> simp_all [errorMessage]
      | cons => simp only [errorMessage, hTexts]

/-- Primitives answer the same to values that look the same. -/
theorem apply_eq_of_resembles (hUnique : Relator.BiUnique B) (op : Primitive)
    (h : List.Forall₂ (Value.Resembles B) vs ws) : op.apply vs = op.apply ws := by
  have hMessage := errorMessage_eq_of_resembles h
  cases h with
  | nil => rfl
  | cons hLeft hRest =>
      cases hRest with
      | nil => cases op <;> simp_all [apply]
      | cons hRight hRest =>
          cases hRest with
          | nil =>
              cases op with
              | error => simp only [apply, hMessage]
              | equal => simp only [apply, hLeft.equal_eq hUnique hRight]
              | constTrue | constFalse => rfl
              | add | subtract | multiply | divide | atMost => cases hLeft <;> cases hRight <;> rfl
          | cons hThird hRest =>
              have hLength := hRest.length_eq
              cases op <;> simp_all [apply]

end Primitive

end ArrowLisp
