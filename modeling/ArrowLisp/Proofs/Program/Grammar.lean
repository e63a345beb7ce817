import ArrowLisp.Program.Failure
import ArrowLisp.Proofs.Program.Storing

/-!
Which trees are programs, and what is said of the others. The grammar speaks of lists by their
shapes. A tree outside of it has violations, which a walk meets from left to right, those of a
lambda's parameters before those of its body; a tree is refused for the first of them.
-/

namespace ArrowLisp

/-- The grammar of programs. A list that has the shape of a conditional is nothing else, and a list
that has the shape of a lambda is no application. -/
inductive Sexp.IsExpression : Sexp → Prop where
  | number (x : Float) : IsExpression (.number x)
  | string (s : String) : IsExpression (.string s)
  | bool (b : Bool) : IsExpression (.bool b)
  | symbol (text : String) : IsExpression (.symbol text)
  | conditional {c t e : Sexp} (hCondition : IsExpression c) (hConsequent : IsExpression t)
      (hAlternative : IsExpression e) : IsExpression (.list [.symbol Form.ifWord, c, t, e])
  | lambda {params : List Sexp} {body : Sexp}
      (hConditional : ¬ConditionalShape (params ++ [.symbol Form.arrow, body]))
      (hSome : params ≠ []) (hParams : ∀ p ∈ params, ∃ text, p = .symbol text)
      (hBody : IsExpression body) : IsExpression (.list (params ++ [.symbol Form.arrow, body]))
  | application {items : List Sexp} (hConditional : ¬ConditionalShape items)
      (hLambda : ¬LambdaShape items) (hSome : items ≠ [])
      (hItems : ∀ item ∈ items, IsExpression item) : IsExpression (.list items)

/-- What is wrong with a parameter, if it is not a symbol. -/
def Sexp.parameterError? : Sexp → Option ParseError
  | .symbol _ => none
  | item => some (.invalidParameter item.display)

/-- All violations that a walk over a tree meets, in order. -/
inductive Sexp.Violations : Sexp → List ParseError → Prop where
  | number (x : Float) : Violations (.number x) []
  | string (s : String) : Violations (.string s) []
  | bool (b : Bool) : Violations (.bool b) []
  | symbol (text : String) : Violations (.symbol text) []
  | conditional {c t e : Sexp} {cs ts es : List ParseError} (hCondition : Violations c cs)
      (hConsequent : Violations t ts) (hAlternative : Violations e es) :
      Violations (.list [.symbol Form.ifWord, c, t, e]) (cs ++ (ts ++ es))
  | missingParameters {body : Sexp} {vs : List ParseError} (hBody : Violations body vs) :
      Violations (.list [.symbol Form.arrow, body]) (.missingParameters :: vs)
  | lambda {params : List Sexp} {body : Sexp} {vs : List ParseError}
      (hConditional : ¬ConditionalShape (params ++ [.symbol Form.arrow, body]))
      (hSome : params ≠ []) (hBody : Violations body vs) :
      Violations (.list (params ++ [.symbol Form.arrow, body]))
        (params.filterMap parameterError? ++ vs)
  | emptyList : Violations (.list []) [.emptyList]
  | application {items : List Sexp} {vs : Sexp → List ParseError}
      (hConditional : ¬ConditionalShape items) (hLambda : ¬LambdaShape items) (hSome : items ≠ [])
      (hItems : ∀ item ∈ items, Violations item (vs item)) :
      Violations (.list items) (items.flatMap vs)

namespace Sexp

theorem filterMap_parameterError?_eq_nil {params : List Sexp} :
    params.filterMap parameterError? = [] ↔ ∀ p ∈ params, ∃ text, p = .symbol text := by
  rw [List.filterMap_eq_nil_iff]
  refine forall₂_congr fun p _ => ?_
  cases p <;> simp [parameterError?]

/-- Every tree can be walked over. -/
theorem exists_violations (s : Sexp) : ∃ vs, s.Violations vs := by
  induction s using Sexp.shape_induction with
  | number x => exact ⟨_, .number x⟩
  | string s => exact ⟨_, .string s⟩
  | bool b => exact ⟨_, .bool b⟩
  | symbol text => exact ⟨_, .symbol text⟩
  | conditional ihC ihT ihE =>
      obtain ⟨_, hC⟩ := ihC
      obtain ⟨_, hT⟩ := ihT
      obtain ⟨_, hE⟩ := ihE
      exact ⟨_, .conditional hC hT hE⟩
  | missingParameters ih =>
      obtain ⟨_, hBody⟩ := ih
      exact ⟨_, .missingParameters hBody⟩
  | lambda hConditional hSome ih =>
      obtain ⟨_, hBody⟩ := ih
      exact ⟨_, .lambda hConditional hSome hBody⟩
  | emptyList => exact ⟨_, .emptyList⟩
  | application hConditional hLambda hSome ih =>
      choose! vs hItems using ih
      exact ⟨_, .application hConditional hLambda hSome hItems⟩

/-- The grammar is what has no violations. -/
theorem isExpression_iff {s : Sexp} : s.IsExpression ↔ s.Violations [] := by
  constructor
  · intro h
    induction h with
    | number x => exact .number x
    | string s => exact .string s
    | bool b => exact .bool b
    | symbol text => exact .symbol text
    | conditional _ _ _ ihC ihT ihE => exact .conditional ihC ihT ihE
    | lambda hConditional hSome hParams _ ih =>
        have hWalk := Violations.lambda hConditional hSome ih
        rwa [filterMap_parameterError?_eq_nil.2 hParams] at hWalk
    | application hConditional hLambda hSome _ ih =>
        have hWalk := Violations.application hConditional hLambda hSome ih
        rwa [List.flatMap_eq_nil_iff.2 fun _ _ => rfl] at hWalk
  · intro h
    generalize hNone : ([] : List ParseError) = vs at h
    induction h with
    | number x => exact .number x
    | string s => exact .string s
    | bool b => exact .bool b
    | symbol text => exact .symbol text
    | conditional _ _ _ ihC ihT ihE =>
        obtain ⟨hC, hRest⟩ := List.append_eq_nil_iff.1 hNone.symm
        obtain ⟨hT, hE⟩ := List.append_eq_nil_iff.1 hRest
        exact .conditional (ihC hC.symm) (ihT hT.symm) (ihE hE.symm)
    | missingParameters | emptyList => cases hNone
    | lambda hConditional hSome _ ih =>
        obtain ⟨hParams, hBody⟩ := List.append_eq_nil_iff.1 hNone.symm
        exact .lambda hConditional hSome (filterMap_parameterError?_eq_nil.1 hParams)
          (ih hBody.symm)
    | application hConditional hLambda hSome _ ih =>
        have hItems := List.flatMap_eq_nil_iff.1 hNone.symm
        exact .application hConditional hLambda hSome fun item hItem =>
          ih item hItem (hItems item hItem).symm

end Sexp

/-- A result reports the first of some violations, and succeeds if there are none. -/
inductive Reports {α : Type} : Except ParseError α → List ParseError → Prop where
  | ok (x : α) : Reports (.ok x) []
  | error (e : ParseError) (rest : List ParseError) : Reports (.error e) (e :: rest)

namespace Reports

variable {α β : Type} {r : Except ParseError α} {vs ws : List ParseError}

/-- Of what is done first the violations come first. -/
theorem bind {f : α → Except ParseError β} (h : Reports r vs) (hNext : ∀ x, Reports (f x) ws) :
    Reports (r >>= f) (vs ++ ws) := by
  cases h with
  | ok x => exact hNext x
  | error e rest => exact .error e (rest ++ ws)

theorem last {f : α → β} (h : Reports r vs) : Reports (r >>= fun x => pure (f x)) vs := by
  cases h with
  | ok x => exact .ok (f x)
  | error e rest => exact .error e rest

end Reports

namespace Expr

theorem reports_paramsOfSexps (params : List Sexp) :
    Reports (paramsOfSexps params) (params.filterMap Sexp.parameterError?) := by
  induction params with
  | nil => exact .ok []
  | cons param params ih =>
      rw [paramsOfSexps]
      cases param with
      | symbol text =>
          exact ih.last
      | _ => exact .error _ _

theorem reports_ofSexps {items : List Sexp} {vs : Sexp → List ParseError}
    (h : ∀ item ∈ items, Reports (ofSexp item) (vs item)) :
    Reports (ofSexps items) (items.flatMap vs) := by
  induction items with
  | nil => rw [ofSexps]; exact .ok []
  | cons item items ih =>
      obtain ⟨hHead, hTail⟩ := List.forall_mem_cons.1 h
      rw [ofSexps, List.flatMap_cons]
      exact hHead.bind fun _ => (ih hTail).last

/-- A tree is read, or refused for the first of its violations. -/
theorem reports_ofSexp {s : Sexp} {vs : List ParseError} (h : s.Violations vs) :
    Reports (ofSexp s) vs := by
  induction h with
  | number | string | bool | symbol => rw [ofSexp]; exact .ok _
  | conditional _ _ _ ihC ihT ihE =>
      rw [ofSexp_conditional (Form.ofItems_conditional _ _ _)]
      exact ihC.bind fun _ => ihT.bind fun _ => ihE.last
  | @missingParameters body vs =>
      rw [ofSexp_missingParameters (Form.ofItems_missingParameters body)]
      exact .error _ vs
  | lambda hConditional hSome _ ih =>
      obtain ⟨param, params, rfl⟩ := List.exists_cons_of_ne_nil hSome
      rw [ofSexp_lambda (Form.ofItems_lambda hConditional)]
      exact (reports_paramsOfSexps _).bind fun _ => ih.last
  | emptyList =>
      rw [ofSexp_emptyList rfl]
      exact .error _ []
  | application hConditional hLambda hSome _ ih =>
      obtain ⟨callee, args, rfl⟩ := List.exists_cons_of_ne_nil hSome
      obtain ⟨hCallee, hArgs⟩ := List.forall_mem_cons.1 ih
      rw [ofSexp_application (Form.ofItems_application hConditional hLambda)]
      exact hCallee.bind fun _ => (reports_ofSexps hArgs).last

end Expr

namespace Program

/-- Reading a program fails as reading the expression fails. -/
theorem reports_ofSexp {s : Sexp} {vs : List ParseError} (h : s.Violations vs) (names : Interner) :
    Reports (ofSexp s names).1 vs := by
  have hSame := verdict_ofSexp s names
  have hExpr := Expr.reports_ofSexp h
  generalize (ofSexp s names).1 = r, Expr.ofSexp s = r' at hSame hExpr
  cases hExpr <;> cases r <;> cases hSame <;> constructor

/-- A tree is a program exactly if it is in the grammar. What is stored then stands for the
expression that the tree spells, and what is refused is refused for the first violation. -/
theorem ofSexp_correct (s : Sexp) (names : Interner) :
    ((∃ p, (ofSexp s names).1 = .ok p) ↔ s.IsExpression) ∧
    (∀ p, (ofSexp s names).1 = .ok p → ∃ e, p.arena.tree? p.root = some e ∧
      Expr.ofSexp s = .ok (e.map (ofSexp s names).2.lookup)) ∧
    ∀ err, (ofSexp s names).1 = .error err ↔ ∃ rest, s.Violations (err :: rest) := by
  obtain ⟨vs, hViolations⟩ := s.exists_violations
  have hReports := reports_ofSexp hViolations names
  refine ⟨⟨?_, fun hGrammar => ?_⟩, fun p hp => ?_, fun err => ⟨fun hErr => ?_, ?_⟩⟩
  · rintro ⟨p, hp⟩
    rw [hp] at hReports
    cases hReports
    exact Sexp.isExpression_iff.2 hViolations
  · have hNone := reports_ofSexp (Sexp.isExpression_iff.1 hGrammar) names
    generalize (ofSexp s names).1 = r at hNone
    cases hNone with
    | ok p => exact ⟨p, rfl⟩
  · obtain ⟨e, hPlant, -, hSpells⟩ := exists_plant_of_ofSexp (Prod.ext hp rfl)
    have hTrees := (Arena.planted e .empty Arena.wellFormed_empty).trees
    rw [hPlant] at hTrees
    exact ⟨e, (List.forall₂_cons.1 hTrees).1, hSpells _ (.refl _)⟩
  · rw [hErr] at hReports
    cases hReports with
    | error _ rest => exact ⟨rest, hViolations⟩
  · rintro ⟨rest, hFirst⟩
    have hReports := reports_ofSexp hFirst names
    generalize (ofSexp s names).1 = r at hReports
    cases hReports
    rfl

end Program

end ArrowLisp
