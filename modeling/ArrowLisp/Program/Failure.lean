import ArrowLisp.Expr.Sexp
import ArrowLisp.Program.Store

/-!
Which trees are programs, and what is said of those that are not. Storing a tree and reading it as
an expression succeed on the same trees and fail with the same error: `verdict_store`.
-/

namespace ArrowLisp.Program

open Builder

/-- Whether something has failed, and how. -/
def verdict {α : Type} (r : Except ParseError α) : Except ParseError Unit := r.map fun _ => ()

theorem verdict_andThen {α β γ δ : Type} {r : Except ParseError α × Builder}
    {r' : Except ParseError γ} {next : α → Builder → Except ParseError β × Builder}
    {next' : γ → Except ParseError δ} (h : verdict r.1 = verdict r')
    (hNext : ∀ x b x', verdict (next x b).1 = verdict (next' x')) :
    verdict (andThen r next).1 = verdict (r' >>= next') := by
  obtain ⟨r, b⟩ := r
  cases r <;> cases r' <;> simp_all only [verdict, Except.map, andThen_ok, andThen_error, bind,
    Except.bind, reduceCtorEq]
  exact hNext _ _ _

theorem verdict_nameParams (items : List Sexp) (b : Builder) :
    verdict (b.nameParams items).1 = verdict (Expr.paramsOfSexps items) := by
  induction items generalizing b with
  | nil => rfl
  | cons item items ih =>
      rw [nameParams, Expr.paramsOfSexps]
      cases item.symbol? with
      | none => rfl
      | some text =>
          have hRest := ih { b with names := (b.names.intern text).2 }
          revert hRest
          cases h : (nameParams { b with names := (b.names.intern text).2 } items).1 <;>
            cases Expr.paramsOfSexps items <;> simp [verdict, Except.map, h]

theorem verdict_store (s : Sexp) (b : Builder) :
    verdict (b.store s).1 = verdict (Expr.ofSexp s) := by
  refine Builder.store.induct (fun b s => verdict (b.store s).1 = verdict (Expr.ofSexp s))
    (fun b ss => verdict (b.storeAll ss).1 = verdict (Expr.ofSexps ss))
    ?_ ?_ ?_ ?_ ?_ ?_ ?_ ?_ ?_ ?_ b s
  case refine_5 =>
    intro b items condition consequent alternative hForm ihCondition ihConsequent ihAlternative
    rw [Expr.ofSexp_conditional hForm, Builder.store]
    split <;> simp_all
    exact verdict_andThen ihCondition fun _ _ _ => verdict_andThen (ihConsequent _) fun _ _ _ =>
      verdict_andThen (ihAlternative _) fun _ _ _ => rfl
  case refine_6 =>
    intro b items params body hForm ih
    cases params with
    | nil =>
        rw [Expr.ofSexp, Builder.store]
        split <;> split <;> simp_all [Builder.params]
        rfl
    | cons param params =>
        rw [Expr.ofSexp_lambda hForm, Builder.store]
        split <;> simp_all
        exact verdict_andThen (verdict_nameParams _ _) fun _ _ _ =>
          verdict_andThen (ih _) fun _ _ _ => rfl
  case refine_7 =>
    intro b items hForm
    rw [Expr.ofSexp, Builder.store]
    split <;> split <;> simp_all
    rfl
  case refine_8 =>
    intro b items callee args hForm ihCallee ihArgs
    rw [Expr.ofSexp_application hForm, Builder.store]
    split <;> simp_all
    exact verdict_andThen ihCallee fun _ _ _ => verdict_andThen (ihArgs _) fun _ _ _ => rfl
  case refine_10 =>
    intro b s rest ih ihRest
    rw [Expr.ofSexps, Builder.storeAll]
    exact verdict_andThen ih fun _ _ _ => verdict_andThen (ihRest _) fun _ _ _ => rfl
  all_goals
    intros
    simp only [Expr.ofSexp, Expr.ofSexps, Builder.store, Builder.storeAll]
    rfl

/-- A tree is a program exactly if it spells an expression, whatever names there are already. -/
theorem verdict_ofSexp (s : Sexp) (names : Interner) :
    verdict (ofSexp s names).1 = verdict (Expr.ofSexp s) := by
  rw [← verdict_store s ⟨.empty, names⟩, ofSexp, build_tree]
  cases h : ((⟨.empty, names⟩ : Builder).store s).1 <;> split <;> simp_all [verdict, Except.map]

end ArrowLisp.Program
