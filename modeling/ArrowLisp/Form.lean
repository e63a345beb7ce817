import ArrowLisp.Sexp

/-!
The three forms of a list: conditional, lambda and application, in this order of precedence. The
words `if` and `=>` are symbols like any other outside the places that are looked at here.
-/

namespace ArrowLisp

/-- A list told apart by its form, with the parts that the form has. -/
inductive Form where
  | conditional (condition consequent alternative : Sexp)
  | lambda (params : List Sexp) (body : Sexp)
  | application (items : List Sexp)

namespace Form

/-- The symbol that opens a conditional. -/
def ifWord : String := "if"

/-- The symbol between the parameters of a lambda and its body. -/
def arrow : String := "=>"

/-- The parts of a list of exactly four items of which the first is `if`. -/
def conditional? : List Sexp → Option (Sexp × Sexp × Sexp)
  | [head, condition, consequent, alternative] =>
    if head.isSymbol ifWord then some (condition, consequent, alternative) else none
  | _ => none

/-- The parts of a list whose last item but one is `=>`. -/
def lambda? (items : List Sexp) : Option (List Sexp × Sexp) :=
  match items.reverse with
  | body :: separator :: params =>
    if separator.isSymbol arrow then some (params.reverse, body) else none
  | _ => none

/-- The form of a list. What is neither a conditional nor a lambda is an application. -/
def ofItems (items : List Sexp) : Form :=
  match conditional? items with
  | some (condition, consequent, alternative) => .conditional condition consequent alternative
  | none =>
    match lambda? items with
    | some (params, body) => .lambda params body
    | none => .application items

/-- A lambda's items are its parameters, the arrow and its body. -/
theorem eq_of_lambda? {items params : List Sexp} {body : Sexp}
    (h : lambda? items = some (params, body)) :
    items = params ++ [.symbol arrow, body] := by
  unfold lambda? at h
  split at h
  · next last separator before hItems =>
      split at h
      · rw [← List.reverse_reverse items, hItems]
        cases separator <;> simp_all [Sexp.isSymbol]
      · simp at h
  · simp at h

/-- A conditional's items are the word `if` and its three parts. -/
theorem eq_of_conditional? {items : List Sexp} {condition consequent alternative : Sexp}
    (h : conditional? items = some (condition, consequent, alternative)) :
    items = [.symbol ifWord, condition, consequent, alternative] := by
  unfold conditional? at h
  split at h
  · split at h
    · next head _ _ _ hHead => cases head <;> simp_all [Sexp.isSymbol]
    · simp at h
  · simp at h

theorem eq_of_ofItems_conditional {items : List Sexp} {condition consequent alternative : Sexp}
    (h : ofItems items = .conditional condition consequent alternative) :
    items = [.symbol ifWord, condition, consequent, alternative] := by
  unfold ofItems at h
  split at h
  · next hParts => cases h; exact eq_of_conditional? hParts
  · split at h <;> simp at h

theorem eq_of_ofItems_lambda {items params : List Sexp} {body : Sexp}
    (h : ofItems items = .lambda params body) : items = params ++ [.symbol arrow, body] := by
  unfold ofItems at h
  split at h
  · simp at h
  · split at h
    · next hParts => cases h; exact eq_of_lambda? hParts
    · simp at h

theorem eq_of_ofItems_application {items parts : List Sexp}
    (h : ofItems items = .application parts) : items = parts := by
  unfold ofItems at h
  split at h
  · simp at h
  · split at h
    · simp at h
    · cases h; rfl

theorem sizeOf_conditional {items : List Sexp} {condition consequent alternative : Sexp}
    (h : ofItems items = .conditional condition consequent alternative) :
    sizeOf condition + sizeOf consequent + sizeOf alternative + 4 ≤ sizeOf items := by
  rw [eq_of_ofItems_conditional h]
  simp
  omega

theorem sizeOf_lambda {items params : List Sexp} {body : Sexp}
    (h : ofItems items = .lambda params body) : sizeOf body < sizeOf items := by
  rw [eq_of_ofItems_lambda h]
  have : body ∈ params ++ [.symbol arrow, body] := by simp
  exact List.sizeOf_lt_of_mem this

theorem sizeOf_application {items parts : List Sexp}
    (h : ofItems items = .application parts) : sizeOf parts = sizeOf items := by
  rw [eq_of_ofItems_application h]

end Form

end ArrowLisp
