import ArrowLisp.Form

/-!
Lists by their shape. A list has the shape of a conditional, of a lambda or neither; the shape of a
conditional counts first. Trees admit an induction that follows their forms.
-/

namespace ArrowLisp

/-- The shape of a conditional: exactly four items, of which the first is the word `if`. -/
def ConditionalShape (items : List Sexp) : Prop :=
  ∃ condition consequent alternative,
    items = [.symbol Form.ifWord, condition, consequent, alternative]

/-- The shape of a lambda: the last item but one is the arrow. -/
def LambdaShape (items : List Sexp) : Prop :=
  ∃ before body, items = before ++ [.symbol Form.arrow, body]

namespace Form

variable {items : List Sexp}

theorem ofItems_conditional (condition consequent alternative : Sexp) :
    ofItems [.symbol ifWord, condition, consequent, alternative] =
      .conditional condition consequent alternative := by
  simp [ofItems, conditional?, Sexp.isSymbol]

theorem conditional?_eq_none (h : ¬ConditionalShape items) : conditional? items = none := by
  cases hParts : conditional? items with
  | none => rfl
  | some parts => exact absurd ⟨_, _, _, eq_of_conditional? hParts⟩ h

theorem ofItems_lambda {params : List Sexp} {body : Sexp}
    (h : ¬ConditionalShape (params ++ [.symbol arrow, body])) :
    ofItems (params ++ [.symbol arrow, body]) = .lambda params body := by
  have hParts : lambda? (params ++ [.symbol arrow, body]) = some (params, body) := by
    simp [lambda?, Sexp.isSymbol]
  rw [ofItems, conditional?_eq_none h, hParts]

/-- An arrow and a body without parameters are a lambda too. -/
theorem ofItems_missingParameters (body : Sexp) :
    ofItems [.symbol arrow, body] = .lambda [] body := by
  have hConditional : ¬ConditionalShape ([] ++ [.symbol arrow, body]) := by simp [ConditionalShape]
  exact ofItems_lambda hConditional

theorem ofItems_application (hIf : ¬ConditionalShape items) (hArrow : ¬LambdaShape items) :
    ofItems items = .application items := by
  rw [ofItems, conditional?_eq_none hIf]
  cases hParts : lambda? items with
  | none => rfl
  | some parts => exact absurd ⟨_, _, eq_of_lambda? hParts⟩ hArrow

/-- The form of a lambda is not given to the shape of a conditional. -/
theorem not_conditionalShape_of_lambda {params : List Sexp} {body : Sexp}
    (h : ofItems items = .lambda params body) : ¬ConditionalShape items := by
  rintro ⟨c, t, e, rfl⟩
  rw [ofItems_conditional] at h
  cases h

/-- The form of an application is given to what has neither of the two shapes. -/
theorem not_shape_of_application {parts : List Sexp} (h : ofItems items = .application parts) :
    ¬ConditionalShape items ∧ ¬LambdaShape items := by
  have hIf : ¬ConditionalShape items := by
    rintro ⟨c, t, e, rfl⟩
    rw [ofItems_conditional] at h
    cases h
  refine ⟨hIf, ?_⟩
  rintro ⟨params, body, rfl⟩
  rw [ofItems_lambda hIf] at h
  cases h

end Form

/-- Induction on a tree by the forms of its lists. -/
@[elab_as_elim]
theorem Sexp.form_induction {motive : Sexp → Prop} (number : ∀ x, motive (.number x))
    (string : ∀ s, motive (.string s)) (bool : ∀ b, motive (.bool b))
    (symbol : ∀ text, motive (.symbol text))
    (conditional : ∀ {items condition consequent alternative},
      Form.ofItems items = .conditional condition consequent alternative → motive condition →
      motive consequent → motive alternative → motive (.list items))
    (lambda : ∀ {items params body}, Form.ofItems items = .lambda params body → motive body →
      motive (.list items))
    (application : ∀ {items}, Form.ofItems items = .application items →
      (∀ item ∈ items, motive item) → motive (.list items))
    (s : Sexp) : motive s := by
  induction hSize : sizeOf s using Nat.strongRecOn generalizing s with
  | ind size ih =>
      have hSmaller : ∀ t : Sexp, sizeOf t < sizeOf s → motive t :=
        fun t ht => ih _ (hSize ▸ ht) t rfl
      cases s with
      | number x => exact number x
      | string s => exact string s
      | bool b => exact bool b
      | symbol text => exact symbol text
      | list items =>
          have hList : sizeOf (Sexp.list items) = 1 + sizeOf items := Sexp.list.sizeOf_spec items
          cases hForm : Form.ofItems items with
          | conditional c t e =>
              have := Form.sizeOf_conditional hForm
              exact conditional hForm (hSmaller c (by omega)) (hSmaller t (by omega))
                (hSmaller e (by omega))
          | lambda params body =>
              have := Form.sizeOf_lambda hForm
              exact lambda hForm (hSmaller body (by omega))
          | application parts =>
              obtain rfl := Form.eq_of_ofItems_application hForm
              refine application hForm fun item hItem => hSmaller item ?_
              have := List.sizeOf_lt_of_mem hItem
              omega

/-- Induction on a tree by the shapes of its lists. -/
@[elab_as_elim]
theorem Sexp.shape_induction {motive : Sexp → Prop} (number : ∀ x, motive (.number x))
    (string : ∀ s, motive (.string s)) (bool : ∀ b, motive (.bool b))
    (symbol : ∀ text, motive (.symbol text))
    (conditional : ∀ {condition consequent alternative}, motive condition → motive consequent →
      motive alternative →
      motive (.list [.symbol Form.ifWord, condition, consequent, alternative]))
    (missingParameters : ∀ {body}, motive body → motive (.list [.symbol Form.arrow, body]))
    (lambda : ∀ {params body}, ¬ConditionalShape (params ++ [.symbol Form.arrow, body]) →
      params ≠ [] → motive body → motive (.list (params ++ [.symbol Form.arrow, body])))
    (emptyList : motive (.list []))
    (application : ∀ {items}, ¬ConditionalShape items → ¬LambdaShape items → items ≠ [] →
      (∀ item ∈ items, motive item) → motive (.list items))
    (s : Sexp) : motive s := by
  induction s using Sexp.form_induction with
  | number x => exact number x
  | string s => exact string s
  | bool b => exact bool b
  | symbol text => exact symbol text
  | conditional hForm ihCondition ihConsequent ihAlternative =>
      obtain rfl := Form.eq_of_ofItems_conditional hForm
      exact conditional ihCondition ihConsequent ihAlternative
  | @lambda items params body hForm ih =>
      have hConditional := Form.not_conditionalShape_of_lambda hForm
      obtain rfl := Form.eq_of_ofItems_lambda hForm
      by_cases hSome : params = []
      · subst hSome
        exact missingParameters ih
      · exact lambda hConditional hSome ih
  | @application items hForm ih =>
      obtain ⟨hConditional, hLambda⟩ := Form.not_shape_of_application hForm
      by_cases hSome : items = []
      · subst hSome
        exact emptyList
      · exact application hConditional hLambda hSome ih

end ArrowLisp
