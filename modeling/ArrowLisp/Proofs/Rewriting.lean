import ArrowLisp.Proofs.Expressions
import Mathlib.Data.List.Forall2

/-!
Rewriting of expressions. An expression is rewritten into another if the two are the same but for
what is put for identifiers, for names of parameters, and for conditionals with a constant
condition, which are replaced by one of their branches. Substitution, the renaming of a parameter
and the choice of a branch at any place of an expression are rewritings.
-/

namespace ArrowLisp.Expr

variable {ν : Type}

section Substitution

variable [DecidableEq ν]

mutual

/-- Put an expression for every free occurrence of a name. Its own names are not looked at: lambdas
on the way may capture them. -/
def subst (e : Expr ν) (x : ν) (t : Expr ν) : Expr ν :=
  match e with
  | .number y => .number y
  | .string s => .string s
  | .bool b => .bool b
  | .identifier name => if name = x then t else .identifier name
  | .conditional condition consequent alternative =>
    .conditional (condition.subst x t) (consequent.subst x t) (alternative.subst x t)
  | .lambda params body => .lambda params (if x ∈ params then body else body.subst x t)
  | .apply callee args => .apply (callee.subst x t) (substAll args x t)

/-- `subst` on every expression of a list. -/
def substAll (es : List (Expr ν)) (x : ν) (t : Expr ν) : List (Expr ν) :=
  match es with
  | [] => []
  | e :: rest => e.subst x t :: substAll rest x t

end

@[simp]
theorem substAll_eq_map (es : List (Expr ν)) (x : ν) (t : Expr ν) :
    substAll es x t = es.map (·.subst x t) := by
  induction es with
  | nil => rfl
  | cons e es ih => rw [substAll, ih, List.map_cons]

end Substitution

/-- The expressions that are values as they stand. -/
inductive IsLiteral : Expr ν → Prop where
  | number (x : Float) : IsLiteral (.number x)
  | string (s : String) : IsLiteral (.string s)
  | bool (b : Bool) : IsLiteral (.bool b)

/-- An expression with a hole in the place of one of its parts. -/
inductive Context (ν : Type) where
  | hole
  | condition (c : Context ν) (consequent alternative : Expr ν)
  | consequent (condition : Expr ν) (c : Context ν) (alternative : Expr ν)
  | alternative (condition consequent : Expr ν) (c : Context ν)
  | body (params : List ν) (c : Context ν)
  | callee (c : Context ν) (args : List (Expr ν))
  | arg (callee : Expr ν) (before : List (Expr ν)) (c : Context ν) (after : List (Expr ν))

/-- The expression with a part put into the hole. Lambdas around the hole bind names of the part. -/
def Context.fill (c : Context ν) (part : Expr ν) : Expr ν :=
  match c with
  | .hole => part
  | .condition c t e => .conditional (c.fill part) t e
  | .consequent b c e => .conditional b (c.fill part) e
  | .alternative b t c => .conditional b t (c.fill part)
  | .body params c => .lambda params (c.fill part)
  | .callee c args => .apply (c.fill part) args
  | .arg f before c after => .apply f (before ++ c.fill part :: after)

/-- What may be put for each identifier. -/
abbrev Rewriting (ν : Type) := ν → Expr ν → Prop

/-- Every identifier stays as it is. -/
def Rewriting.same : Rewriting ν := fun x t => t = .identifier x

/-- What may be put for identifiers inside a lambda. Parameters become those at the same places, and
no other identifier becomes one of these. -/
def Rewriting.under (N : Rewriting ν) (params params' : List ν) : Rewriting ν := fun x t =>
  (x ∈ params ∨ N x t) ∧ List.Forall₂ (fun p p' => x = p ↔ t = .identifier p') params params'

/-- The first expression can be rewritten into the second. -/
inductive Rewrites : Rewriting ν → Expr ν → Expr ν → Prop where
  | number {N : Rewriting ν} (x : Float) : Rewrites N (.number x) (.number x)
  | string {N : Rewriting ν} (s : String) : Rewrites N (.string s) (.string s)
  | bool {N : Rewriting ν} (b : Bool) : Rewrites N (.bool b) (.bool b)
  | identifier {N : Rewriting ν} {x : ν} {t : Expr ν} (h : N x t) : Rewrites N (.identifier x) t
  | conditional {N : Rewriting ν} {c t e c' t' e' : Expr ν} (hCondition : Rewrites N c c')
      (hConsequent : Rewrites N t t') (hAlternative : Rewrites N e e') :
      Rewrites N (.conditional c t e) (.conditional c' t' e')
  | lambda {N : Rewriting ν} {params params' : List ν} {body body' : Expr ν}
      (hLength : params.length = params'.length)
      (hBody : Rewrites (N.under params params') body body') :
      Rewrites N (.lambda params body) (.lambda params' body')
  | apply {N : Rewriting ν} {callee callee' : Expr ν} {args args' : List (Expr ν)}
      (hCallee : Rewrites N callee callee') (hLength : args.length = args'.length)
      (hArgs : ∀ {arg arg'}, (arg, arg') ∈ args.zip args' → Rewrites N arg arg') :
      Rewrites N (.apply callee args) (.apply callee' args')
  | branch {N : Rewriting ν} {t e e' : Expr ν} (b : Bool) (h : Rewrites N (if b then t else e) e') :
      Rewrites N (.conditional (.bool b) t e) e'

variable {N : Rewriting ν} {x : ν} {t e e' : Expr ν}

theorem Rewrites.apply_of_forall₂ {callee callee' : Expr ν} {args args' : List (Expr ν)}
    (hCallee : Rewrites N callee callee') (hArgs : List.Forall₂ (Rewrites N) args args') :
    Rewrites N (.apply callee args) (.apply callee' args') := by
  obtain ⟨hLength, hZip⟩ := List.forall₂_iff_zip.1 hArgs
  exact .apply hCallee hLength hZip

namespace Rewriting

variable {params params' : List ν}

/-- An identifier stays as it is under parameters that do. -/
theorem under_self (h : x ∈ params ∨ N x (.identifier x)) :
    N.under params params x (.identifier x) :=
  ⟨h, List.forall₂_same.2 fun p _ => by simp⟩

/-- Parameters, and no other identifiers, become parameters. -/
theorem mem_iff_of_under (h : N.under params params' x t) :
    x ∈ params ↔ ∃ y ∈ params', t = .identifier y := by
  obtain ⟨-, hPairs⟩ := h
  induction hPairs with
  | nil => simp
  | cons hHead _ ih => simp [ih, hHead]

end Rewriting

/-- An expression all of whose names stay as they are can be left as it is. -/
theorem rewrites_self (h : ∀ x ∈ e.names, N x (.identifier x)) : Rewrites N e e := by
  induction e generalizing N with
  | number x => exact .number x
  | string s => exact .string s
  | bool b => exact .bool b
  | identifier x => exact .identifier (h x (List.mem_singleton_self x))
  | conditional c t e ihC ihT ihE =>
      simp only [names, List.mem_append] at h
      exact .conditional (ihC fun x hx => h x (.inl (.inl hx)))
        (ihT fun x hx => h x (.inl (.inr hx))) (ihE fun x hx => h x (.inr hx))
  | lambda params body ih =>
      simp only [names, List.mem_append] at h
      exact .lambda rfl (ih fun x hx => Rewriting.under_self (.inr (h x (.inr hx))))
  | apply callee args ihCallee ihArgs =>
      simp only [names, namesAll_eq_flatMap, List.mem_append, List.mem_flatMap] at h
      refine .apply_of_forall₂ (ihCallee fun x hx => h x (.inl hx)) (List.forall₂_same.2 ?_)
      exact fun arg hArg => ihArgs arg hArg fun x hx => h x (.inr ⟨arg, hArg, hx⟩)

/-- Substitution rewrites one name and leaves the others as they are. What is put for the name must
not be captured. -/
theorem rewrites_subst [DecidableEq ν] (hx : N x t)
    (hOther : ∀ z ∈ e.names, z ≠ x → N z (.identifier z))
    (hFresh : ∀ z ∈ e.names, t ≠ .identifier z) : Rewrites N e (e.subst x t) := by
  induction e generalizing N with
  | number y => exact .number y
  | string s => exact .string s
  | bool b => exact .bool b
  | identifier y =>
      rw [subst]
      split
      · next hSame => exact .identifier (hSame ▸ hx)
      · next hNe => exact .identifier (hOther y (List.mem_singleton_self y) hNe)
  | conditional c t e ihC ihT ihE =>
      simp only [names, List.forall_mem_append] at hOther hFresh
      rw [subst]
      exact .conditional (ihC hx hOther.1.1 hFresh.1.1) (ihT hx hOther.1.2 hFresh.1.2)
        (ihE hx hOther.2 hFresh.2)
  | lambda params body ih =>
      simp only [names, List.forall_mem_append] at hOther hFresh
      rw [subst]
      split
      · next hMem =>
          -- The parameter hides the name, which is bound here on both sides.
          refine .lambda rfl (rewrites_self fun z hz => ?_)
          refine Rewriting.under_self ?_
          by_cases hSame : z = x
          · exact .inl (hSame ▸ hMem)
          · exact .inr (hOther.2 z hz hSame)
      · next hNone =>
          have hBound : N.under params params x t := by
            refine ⟨.inr hx, List.forall₂_same.2 fun p hp => ?_⟩
            exact iff_of_false (fun hSame => hNone (hSame ▸ hp)) (hFresh.1 p hp)
          exact .lambda rfl (ih hBound
            (fun z hz hNe => Rewriting.under_self (.inr (hOther.2 z hz hNe))) hFresh.2)
  | apply callee args ihCallee ihArgs =>
      simp only [names, namesAll_eq_flatMap, List.forall_mem_append, List.forall_mem_flatMap]
        at hOther hFresh
      rw [subst, substAll_eq_map]
      refine .apply_of_forall₂ (ihCallee hx hOther.1 hFresh.1) (List.forall₂_map_right_iff.2 ?_)
      exact List.forall₂_same.2 fun arg hArg => ihArgs arg hArg hx (hOther.2 arg hArg)
        (hFresh.2 arg hArg)

/-- A parameter of a lambda can get a name that does not occur in the lambda. -/
theorem rewrites_rename [DecidableEq ν] {params : List ν} {body : Expr ν} {y : ν}
    (hParam : x ∈ params) (hFresh : y ∉ (lambda params body).names)
    (hOther : ∀ z, z ≠ y → N z (.identifier z)) :
    Rewrites N (.lambda params body)
      (.lambda (params.map fun z => if z = x then y else z) (body.subst x (.identifier y))) := by
  simp only [names, List.mem_append, not_or] at hFresh
  have hNe : ∀ z ∈ body.names, z ≠ y := fun z hz hSame => hFresh.2 (hSame ▸ hz)
  refine .lambda (by simp) (rewrites_subst ⟨.inl hParam, ?_⟩ (fun z hz hzx => ⟨.inr ?_, ?_⟩) ?_)
  · refine List.forall₂_map_right_iff.2 (List.forall₂_same.2 fun p hp => ?_)
    have hpy : p ≠ y := fun hSame => hFresh.1 (hSame ▸ hp)
    grind
  · exact hOther z (hNe z hz)
  · refine List.forall₂_map_right_iff.2 (List.forall₂_same.2 fun p hp => ?_)
    have hzy := hNe z hz
    grind
  · intro z hz hSame
    exact hNe z hz (identifier.inj hSame).symm

/-- What can be done to a part of an expression can be done in the expression, where the names of a
kind stay as they are. -/
theorem rewrites_fill {S : ν → Prop}
    (h : (∀ x ∈ e.names, S x) → ∀ N : Rewriting ν, (∀ x, S x → N x (.identifier x)) →
      Rewrites N e e') (C : Context ν) (hNames : ∀ x ∈ (C.fill e).names, S x)
    (hN : ∀ x, S x → N x (.identifier x)) : Rewrites N (C.fill e) (C.fill e') := by
  induction C generalizing N with
  | hole => exact h hNames N hN
  | condition c consequent alternative ih =>
      simp only [Context.fill, names, List.forall_mem_append] at hNames
      exact .conditional (ih hNames.1.1 hN) (rewrites_self fun x hx => hN x (hNames.1.2 x hx))
        (rewrites_self fun x hx => hN x (hNames.2 x hx))
  | consequent condition c alternative ih =>
      simp only [Context.fill, names, List.forall_mem_append] at hNames
      exact .conditional (rewrites_self fun x hx => hN x (hNames.1.1 x hx)) (ih hNames.1.2 hN)
        (rewrites_self fun x hx => hN x (hNames.2 x hx))
  | alternative condition consequent c ih =>
      simp only [Context.fill, names, List.forall_mem_append] at hNames
      exact .conditional (rewrites_self fun x hx => hN x (hNames.1.1 x hx))
        (rewrites_self fun x hx => hN x (hNames.1.2 x hx)) (ih hNames.2 hN)
  | body params c ih =>
      simp only [Context.fill, names, List.forall_mem_append] at hNames
      exact .lambda rfl (ih hNames.2 fun x hx => Rewriting.under_self (.inr (hN x hx)))
  | callee c args ih =>
      simp only [Context.fill, names, namesAll_eq_flatMap, List.forall_mem_append,
        List.forall_mem_flatMap] at hNames
      refine .apply_of_forall₂ (ih hNames.1 hN) (List.forall₂_same.2 fun arg hArg => ?_)
      exact rewrites_self fun x hx => hN x (hNames.2 arg hArg x hx)
  | arg callee before c after ih =>
      simp only [Context.fill, names, namesAll_eq_flatMap, List.forall_mem_append,
        List.forall_mem_flatMap, List.forall_mem_cons] at hNames
      obtain ⟨hCallee, hBefore, hHole, hAfter⟩ := hNames
      refine .apply_of_forall₂ (rewrites_self fun x hx => hN x (hCallee x hx)) ?_
      refine List.rel_append (List.forall₂_same.2 fun arg hArg => ?_)
        (.cons (ih hHole hN) (List.forall₂_same.2 fun arg hArg => ?_))
      · exact rewrites_self fun x hx => hN x (hBefore arg hArg x hx)
      · exact rewrites_self fun x hx => hN x (hAfter arg hArg x hx)

end ArrowLisp.Expr
