import ArrowLisp.Primitive.Apply
import ArrowLisp.Proofs.Arena.WellFormed
import ArrowLisp.Proofs.Environments
import ArrowLisp.Proofs.Natural.Rules

/-!
What the values of the machine mean. The body of a closure means the tree that it is read as, and an
environment means a scope by what is found in it, whatever its frames are. Two closures over
different arenas can mean the same. Primitives answer alike to values and to what they mean.
-/

namespace ArrowLisp

open Natural

/-- A value means a datum. Identities and parameters are kept. -/
inductive Value.Means : Value → Datum Name → Prop where
  | number (x : Float) : Means (.number x) (.number x)
  | bool (b : Bool) : Means (.bool b) (.bool b)
  | string (s : String) : Means (.string s) (.string s)
  | primitive (op : Primitive) : Means (.primitive op) (.primitive op)
  | closure {c : Closure Value} {body : Expr Name} {ρ : Scope Name}
      (hBody : c.arena.tree? c.body = some body)
      (hBound : ∀ x, (c.env.lookup x).isSome = (ρ x).isSome)
      (hValues : ∀ x v d, c.env.lookup x = some v → ρ x = some d → Means v d) :
      Means (.closure c) (.procedure c.identity c.params body ρ)

/-- An environment means a scope: the same identifiers are bound, to values that mean the data. -/
def Environment.Means (env : Environment Value) (ρ : Scope Name) : Prop :=
  ∀ x, Option.Rel Value.Means (env.lookup x) (ρ x)

/-- A result means one of the rules: the same error, or a value and what it means. -/
inductive ResultMeans : Except EvalError Value → Except EvalError (Datum Name) → Prop where
  | ok {v : Value} {d : Datum Name} (h : v.Means d) : ResultMeans (.ok v) (.ok d)
  | error (e : EvalError) : ResultMeans (.error e) (.error e)

namespace Value.Means

variable {v w : Value} {d e : Datum Name}

theorem of_env {c : Closure Value} {body : Expr Name} {ρ : Scope Name}
    (hBody : c.arena.tree? c.body = some body) (hEnv : c.env.Means ρ) :
    Value.Means (.closure c) (.procedure c.identity c.params body ρ) := by
  exact .closure hBody (fun x => (optionRel_iff.1 (hEnv x)).1)
    fun x => (optionRel_iff.1 (hEnv x)).2

/-- A value that means a procedure is a closure whose body and environment mean the procedure's. -/
theorem exists_closure {identity : Nat} {params : List Name} {body : Expr Name} {ρ : Scope Name}
    (h : v.Means (.procedure identity params body ρ)) :
    ∃ c, v = .closure c ∧ c.identity = identity ∧ c.params = params ∧
      c.arena.tree? c.body = some body ∧ c.env.Means ρ := by
  cases h with
  | @closure c _ _ hBody hBound hValues =>
      exact ⟨c, rfl, rfl, rfl, hBody, fun x => optionRel_iff.2 ⟨hBound x, hValues x⟩⟩

theorem kind_eq (h : v.Means d) : v.kind = d.kind := by
  cases h <;> rfl

theorem isCallable_eq (h : v.Means d) : v.isCallable = d.isCallable := by
  cases h <;> rfl

theorem serialize_eq (h : v.Means d) : v.serialize = d.serialize := by
  cases h <;> rfl

theorem equal_eq (hv : v.Means d) (hw : w.Means e) : v.equal w = d.equal e := by
  cases hv <;> cases hw <;> rfl

/-- A value means one datum. -/
theorem unique (h : v.Means d) (h' : v.Means e) : d = e := by
  induction h generalizing e with
  | @closure c body ρ hBody hBound hValues ih =>
      cases h' with
      | @closure _ body' ρ' hBody' hBound' hValues' =>
          obtain rfl := Option.some.inj (hBody.symm.trans hBody')
          have hScope : ρ = ρ' := by
            funext x
            have hSame := (hBound x).symm.trans (hBound' x)
            cases hv : c.env.lookup x <;> cases hd : ρ x <;> cases hd' : ρ' x <;>
              grind
          rw [hScope]
  | _ => cases h'; rfl

end Value.Means

namespace Environment.Means

variable {env : Environment Value} {ρ : Scope Name} {x : Name}

theorem exists_datum (h : env.Means ρ) {v : Value} (hv : env.lookup x = some v) :
    ∃ d, ρ x = some d ∧ v.Means d := by
  have hRel := h x
  rw [hv] at hRel
  generalize ρ x = d at hRel
  cases hRel with
  | some h => exact ⟨_, rfl, h⟩

theorem exists_value (h : env.Means ρ) {d : Datum Name} (hd : ρ x = some d) :
    ∃ v, env.lookup x = some v ∧ v.Means d := by
  have hRel := h x
  rw [hd] at hRel
  generalize env.lookup x = v at hRel
  cases hRel with
  | some h => exact ⟨_, rfl, h⟩

theorem eq_none_iff (h : env.Means ρ) : env.lookup x = none ↔ ρ x = none := by
  have hRel := h x
  generalize env.lookup x = v, ρ x = d at hRel
  cases hRel <;> simp

/-- An environment means one scope. -/
theorem unique {ρ' : Scope Name} (h : env.Means ρ) (h' : env.Means ρ') : ρ = ρ' := by
  funext x
  cases hv : env.lookup x with
  | none => rw [h.eq_none_iff.1 hv, h'.eq_none_iff.1 hv]
  | some v =>
      obtain ⟨d, hd, hMeans⟩ := h.exists_datum hv
      obtain ⟨d', hd', hMeans'⟩ := h'.exists_datum hv
      rw [hd, hd', hMeans.unique hMeans']

/-- A new frame of values means the binding of what they mean, one after another. -/
theorem withFrame (h : env.Means ρ) {vs : List Value} {ds : List (Datum Name)}
    (hArgs : List.Forall₂ Value.Means vs ds) (names : List Name) :
    (env.withFrame (names.zip vs)).Means (ρ.bind names ds) := by
  have hFold : ∀ (names : List Name) (f : Frame Value) (ρ : Scope Name),
      (∀ x, Option.Rel Value.Means ((f.find? x).or (env.lookup x)) (ρ x)) →
      ∀ x, Option.Rel Value.Means
        ((((names.zip vs).foldl (fun f (name, v) => f.insert name v) f).find? x).or
          (env.lookup x)) (ρ.bind names ds x) := by
    induction hArgs with
    | nil => intro names f ρ h; simpa [Scope.bind] using h
    | @cons v d vs ds hHead hTail ih =>
        intro names f ρ h
        cases names with
        | nil => simpa [Scope.bind] using h
        | cons name names =>
            refine ih names (f.insert name v) (Function.update ρ name (some d)) fun x => ?_
            rw [Frame.find?_insert]
            by_cases hx : x = name
            · simpa [hx] using hHead
            · simpa [hx] using h x
  intro x
  rw [lookup_withFrame]
  exact hFold names ⟨[]⟩ ρ h x

end Environment.Means

/-- Arguments that mean the same data make `error` say the same. -/
theorem errorMessage_eq {vs : List Value} {ds : List (Datum Name)}
    (h : List.Forall₂ Value.Means vs ds) :
    Primitive.errorMessage vs = Datum.errorMessage ds := by
  have hTexts : vs.map Value.serialize = ds.map Datum.serialize := by
    induction h with
    | nil => rfl
    | cons hHead _ ih => rw [List.map_cons, List.map_cons, hHead.serialize_eq, ih]
  cases h with
  | nil => rfl
  | cons hHead hTail =>
      cases hTail with
      | nil => cases hHead <;> simp_all [Primitive.errorMessage, Datum.errorMessage]
      | cons => simp only [Primitive.errorMessage, Datum.errorMessage, hTexts]

namespace Primitive

/-- What a numeric primitive does to two numbers is what the rules say. -/
theorem answers_onNumbers {op : Primitive} (hOp : op.isNumeric = true) (x y : Float) :
    ∃ r, Answers op [.number x, .number y] r ∧ ResultMeans (op.onNumbers x y) r := by
  cases op with
  | add => exact ⟨_, .add x y, .ok (.number _)⟩
  | subtract => exact ⟨_, .subtract x y, .ok (.number _)⟩
  | multiply => exact ⟨_, .multiply x y, .ok (.number _)⟩
  | atMost => exact ⟨_, .atMost x y, .ok (.bool _)⟩
  | divide =>
      cases hDivisor : y == 0 with
      | true =>
          refine ⟨_, .divisionByZero x y hDivisor, ?_⟩
          simpa [onNumbers, hDivisor] using .error _
      | false =>
          refine ⟨_, .divide x y hDivisor, ?_⟩
          simpa [onNumbers, hDivisor] using .ok (.number _)
  | equal | constTrue | constFalse | error => cases hOp

/-- A primitive answers to values what the rules say that it answers to what they mean. -/
theorem exists_answers (op : Primitive) {vs : List Value} {ds : List (Datum Name)}
    (h : List.Forall₂ Value.Means vs ds) :
    ∃ r, Answers op ds r ∧ ResultMeans (op.apply vs) r := by
  by_cases hError : op = .error
  · subst hError
    refine ⟨_, .error ds, ?_⟩
    rw [← errorMessage_eq h]
    cases vs <;> exact .error _
  by_cases hLength : ds.length = 2
  · obtain ⟨d, e, rfl⟩ := List.length_eq_two.1 hLength
    obtain ⟨v, vs, hv, hRest, rfl⟩ := List.forall₂_cons_right_iff.1 h
    obtain ⟨w, vs, hw, hNil, rfl⟩ := List.forall₂_cons_right_iff.1 hRest
    obtain rfl := List.forall₂_nil_right_iff.1 hNil
    by_cases hNumeric : op.isNumeric = true
    · by_cases hKinds : d.number? = none ∨ e.number? = none
      · have hArgs : (∀ x, v ≠ .number x) ∨ ∀ x, w ≠ .number x := by
          rcases hKinds with hKind | hKind
          · exact Or.inl fun x hx => by subst hx; cases hv; cases hKind
          · exact Or.inr fun x hx => by subst hx; cases hw; cases hKind
        rw [apply_notNumbers hNumeric hArgs, hv.kind_eq, hw.kind_eq]
        exact ⟨_, .notNumbers (by cases op <;> simp_all [isNumeric]) hKinds, .error _⟩
      · cases hv <;> cases hw <;> simp_all [Datum.number?]
        rw [apply_numbers hNumeric]
        exact answers_onNumbers hNumeric _ _
    · cases op with
      | equal =>
          refine ⟨_, .equal d e, ?_⟩
          rw [← hv.equal_eq hw]
          exact .ok (.bool _)
      | constTrue => exact ⟨_, .noMatch hError (by simp), .error _⟩
      | constFalse => exact ⟨_, .noMatch hError (by simp), .error _⟩
      | error => exact absurd rfl hError
      | add | subtract | multiply | divide | atMost => exact absurd rfl hNumeric
  · have hSame := h.length_eq
    refine ⟨_, .noMatch hError (Or.inl hLength), ?_⟩
    rw [apply_of_length_ne hError (by omega), hSame]
    exact .error _

end Primitive

end ArrowLisp
