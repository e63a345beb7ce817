import ArrowLisp.Error
import ArrowLisp.Expr
import ArrowLisp.Form
import ArrowLisp.Sexp.Text

/-!
Expressions as literal trees. `toSexp` writes an expression as a tree, which has the text of the
expression, and `ofSexp` reads one by recursion on the tree. What is read writes back as the tree
that it was read from: `toSexp_of_ofSexp`.
-/

namespace ArrowLisp.Expr

mutual

/-- The literal tree of an expression. -/
def toSexp : Expr String → Sexp
  | .number x => .number x
  | .string s => .string s
  | .bool b => .bool b
  | .identifier name => .symbol name
  | .conditional condition consequent alternative =>
    .list [.symbol Form.ifWord, condition.toSexp, consequent.toSexp, alternative.toSexp]
  | .lambda params body => .list (params.map .symbol ++ [.symbol Form.arrow, body.toSexp])
  | .apply callee args => .list (callee.toSexp :: toSexps args)

/-- The literal trees of expressions. -/
def toSexps : List (Expr String) → List Sexp
  | [] => []
  | e :: rest => e.toSexp :: toSexps rest

end

@[simp]
theorem toSexps_eq_map (es : List (Expr String)) : toSexps es = es.map toSexp := by
  induction es with
  | nil => rfl
  | cons e es ih => rw [toSexps, ih, List.map_cons]

/-- The parameters that a list of trees spells, which must be symbols. -/
def paramsOfSexps : List Sexp → Except ParseError (List String)
  | [] => .ok []
  | item :: rest =>
    match item.symbol? with
    | some text => (paramsOfSexps rest).map (text :: ·)
    | none => .error (.invalidParameter item.display)

mutual

/-- The expression that a literal tree spells, or what is wrong with the first part of the tree
that spells none. Parts are looked at from left to right. -/
def ofSexp : Sexp → Except ParseError (Expr String)
  | .number x => .ok (.number x)
  | .string s => .ok (.string s)
  | .bool b => .ok (.bool b)
  | .symbol text => .ok (.identifier text)
  | .list items =>
    match _hForm : Form.ofItems items with
    | .conditional condition consequent alternative => do
      return .conditional (← ofSexp condition) (← ofSexp consequent) (← ofSexp alternative)
    | .lambda [] _ => .error .missingParameters
    | .lambda (param :: params) body => do
      return .lambda (← paramsOfSexps (param :: params)) (← ofSexp body)
    | .application [] => .error .emptyList
    | .application (callee :: args) => do return .apply (← ofSexp callee) (← ofSexps args)
termination_by s => sizeOf s
decreasing_by
  all_goals simp_wf
  all_goals grind [→ Form.sizeOf_conditional, → Form.sizeOf_lambda, → Form.sizeOf_application]

/-- The expressions that literal trees spell. -/
def ofSexps : List Sexp → Except ParseError (List (Expr String))
  | [] => .ok []
  | s :: rest => do return (← ofSexp s) :: (← ofSexps rest)
termination_by ss => sizeOf ss

end

theorem argsText_eq_join (es : List (Expr String)) :
    argsText es = String.join (es.map (" " ++ ·.text)) := by
  induction es with
  | nil => rfl
  | cons e es ih => simp [argsText, ih]

/-- The tree of an expression has the text of the expression. -/
theorem text_toSexp : (e : Expr String) → e.toSexp.text = e.text
  | .number _ | .string _ | .bool _ | .identifier _ => by simp [toSexp, text, Sexp.text]
  | .conditional condition consequent alternative => by
      simp [toSexp, text, Sexp.text, Sexp.itemsText, text_toSexp condition, text_toSexp consequent,
        text_toSexp alternative, Form.ifWord, String.append_assoc]
      exact String.append_assoc.symm
  | .lambda params body => by
      simp [toSexp, text, Sexp.text, Sexp.itemsText, Sexp.itemsText_append_cons, text_toSexp body,
        Form.arrow, String.append_assoc, Function.comp_def]
  | .apply callee args => by
      have hArgs : args.map (" " ++ ·.toSexp.text) = args.map (" " ++ ·.text) :=
        List.map_congr_left fun e _ => by rw [text_toSexp e]
      simp [toSexp, text, Sexp.text, Sexp.itemsText_cons, argsText_eq_join, text_toSexp callee,
        String.append_assoc, Function.comp_def, hArgs]

theorem ofSexp_conditional {items : List Sexp} {condition consequent alternative : Sexp}
    (hForm : Form.ofItems items = .conditional condition consequent alternative) :
    ofSexp (.list items) = do
      return .conditional (← ofSexp condition) (← ofSexp consequent) (← ofSexp alternative) := by
  rw [ofSexp]
  split <;> simp_all

theorem ofSexp_lambda {items : List Sexp} {param : Sexp} {params : List Sexp} {body : Sexp}
    (hForm : Form.ofItems items = .lambda (param :: params) body) :
    ofSexp (.list items) = do
      return .lambda (← paramsOfSexps (param :: params)) (← ofSexp body) := by
  rw [ofSexp]
  split <;> simp_all

theorem ofSexp_missingParameters {items : List Sexp} {body : Sexp}
    (hForm : Form.ofItems items = .lambda [] body) :
    ofSexp (.list items) = .error .missingParameters := by
  rw [ofSexp]
  split <;> simp_all

theorem ofSexp_emptyList {items : List Sexp} (hForm : Form.ofItems items = .application []) :
    ofSexp (.list items) = .error .emptyList := by
  rw [ofSexp]
  split <;> simp_all

theorem ofSexp_application {items : List Sexp} {callee : Sexp} {args : List Sexp}
    (hForm : Form.ofItems items = .application (callee :: args)) :
    ofSexp (.list items) = do return .apply (← ofSexp callee) (← ofSexps args) := by
  rw [ofSexp]
  split <;> simp_all

theorem eq_map_symbol_of_paramsOfSexps {items : List Sexp} {params : List String}
    (h : paramsOfSexps items = .ok params) : items = params.map .symbol := by
  fun_induction paramsOfSexps items generalizing params with
  | case1 => cases h; rfl
  | case2 item rest name hName ih =>
      cases hRest : paramsOfSexps rest with
      | error e => rw [hRest] at h; cases h
      | ok others =>
          rw [hRest] at h
          cases h
          cases item <;> simp_all [Sexp.symbol?]
  | case3 => cases h

/-- The tree that an expression was read from is the tree of the expression. -/
theorem toSexp_of_ofSexp {s : Sexp} {e : Expr String} (h : ofSexp s = .ok e) : e.toSexp = s := by
  revert e
  refine ofSexp.induct (fun s => ∀ {e}, ofSexp s = .ok e → e.toSexp = s)
    (fun ss => ∀ {es}, ofSexps ss = .ok es → toSexps es = ss) ?_ ?_ ?_ ?_ ?_ ?_ ?_ ?_ ?_ ?_ ?_ s
  case refine_5 =>
    intro items condition consequent alternative hForm ihCondition ihConsequent ihAlternative e h
    rw [ofSexp_conditional hForm] at h
    cases hC : ofSexp condition <;> cases hT : ofSexp consequent <;>
      cases hE : ofSexp alternative <;> rw [hC, hT, hE] at h <;> cases h
    rw [toSexp, ihCondition hC, ihConsequent hT, ihAlternative hE,
      Form.eq_of_ofItems_conditional hForm]
  case refine_6 =>
    intro items body hForm e h
    rw [ofSexp] at h
    split at h <;> simp_all
  case refine_7 =>
    intro items param params body hForm ih e h
    rw [ofSexp_lambda hForm] at h
    cases hParams : paramsOfSexps (param :: params) <;> cases hBody : ofSexp body <;>
      rw [hParams, hBody] at h <;> cases h
    rw [toSexp, ih hBody, ← eq_map_symbol_of_paramsOfSexps hParams,
      Form.eq_of_ofItems_lambda hForm]
  case refine_8 =>
    intro items hForm e h
    rw [ofSexp] at h
    split at h <;> simp_all
  case refine_9 =>
    intro items callee args hForm ihCallee ihArgs e h
    rw [ofSexp_application hForm] at h
    cases hCallee : ofSexp callee <;> cases hArgs : ofSexps args <;>
      rw [hCallee, hArgs] at h <;> cases h
    rw [toSexp, ihCallee hCallee, ihArgs hArgs, Form.eq_of_ofItems_application hForm]
  case refine_11 =>
    intro item rest ihItem ihRest es h
    rw [ofSexps] at h
    cases hItem : ofSexp item <;> cases hRest : ofSexps rest <;>
      rw [hItem, hRest] at h <;> cases h
    rw [toSexps, ihItem hItem, ihRest hRest]
  all_goals
    intros
    rename_i h
    simp only [ofSexp, ofSexps] at h
    cases h
    rfl

end ArrowLisp.Expr
