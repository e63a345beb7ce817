import ArrowLisp.Program.Failure
import ArrowLisp.Proofs.Program.Storing

/-!
Programs and the trees that they came from. Reading a tree loses nothing: the expression that has
been stored writes back as the tree. The other way round, an expression reads back from its own tree
unless some part of it is written in the shape of another form. The expressions without such a part
are the canonical ones, and they are all that reading ever gives.
-/

namespace ArrowLisp

/-- The expression of a whole program, with the texts of its names. -/
def Program.expr? (p : Program) (names : Interner) : Option (Expr String) :=
  (p.arena.tree? p.root).map (Expr.map names.lookup)

/-- An expression no part of which has the shape of another form when it is written as a tree. -/
inductive Expr.Canonical : Expr String → Prop where
  | number (x : Float) : Canonical (.number x)
  | string (s : String) : Canonical (.string s)
  | bool (b : Bool) : Canonical (.bool b)
  | identifier (text : String) : Canonical (.identifier text)
  | conditional {c t e : Expr String} (hCondition : Canonical c) (hConsequent : Canonical t)
      (hAlternative : Canonical e) : Canonical (.conditional c t e)
  /-- A lambda has parameters, and not just two of which the first is the word `if`. -/
  | lambda {params : List String} {body : Expr String} (hSome : params ≠ [])
      (hIf : ∀ second, params ≠ [Form.ifWord, second]) (hBody : Canonical body) :
      Canonical (.lambda params body)
  /-- A call of the word `if` has not three arguments, and the last part but one of a call is not
  the arrow. -/
  | apply {callee : Expr String} {args : List (Expr String)}
      (hIf : callee = .identifier Form.ifWord → args.length ≠ 3)
      (hArrow : ∀ before last, callee :: args ≠ before ++ [.identifier Form.arrow, last])
      (hCallee : Canonical callee) (hArgs : ∀ arg ∈ args, Canonical arg) :
      Canonical (.apply callee args)

namespace Expr

/-- Only an identifier is written as a symbol. -/
theorem toSexp_eq_symbol_iff {e : Expr String} {text : String} :
    e.toSexp = .symbol text ↔ e = .identifier text := by
  cases e <;> simp [toSexp]

theorem conditionalShape_lambda_iff {params : List String} {body : Expr String} :
    ConditionalShape (params.map .symbol ++ [.symbol Form.arrow, body.toSexp]) ↔
      ∃ second, params = [Form.ifWord, second] := by
  constructor
  · rintro ⟨c, t, e, hItems⟩
    have hLength : params.length = 2 := by simpa using congrArg List.length hItems
    obtain ⟨first, second, rfl⟩ := List.length_eq_two.1 hLength
    obtain ⟨hFirst, -⟩ := List.cons.inj hItems
    cases hFirst
    exact ⟨second, rfl⟩
  · rintro ⟨second, rfl⟩
    exact ⟨.symbol second, .symbol Form.arrow, body.toSexp, rfl⟩

theorem conditionalShape_apply_iff {callee : Expr String} {args : List (Expr String)} :
    ConditionalShape (callee.toSexp :: args.map toSexp) ↔
      callee = .identifier Form.ifWord ∧ args.length = 3 := by
  constructor
  · rintro ⟨c, t, e, hItems⟩
    obtain ⟨hCallee, hArgs⟩ := List.cons.inj hItems
    refine ⟨toSexp_eq_symbol_iff.1 hCallee, ?_⟩
    rw [← List.length_map toSexp, hArgs]
    rfl
  · rintro ⟨rfl, hLength⟩
    obtain ⟨c, t, e, rfl⟩ := List.length_eq_three.1 hLength
    exact ⟨c.toSexp, t.toSexp, e.toSexp, rfl⟩

theorem lambdaShape_apply_iff {items : List (Expr String)} :
    LambdaShape (items.map toSexp) ↔
      ∃ before last, items = before ++ [.identifier Form.arrow, last] := by
  constructor
  · rintro ⟨before, body, hItems⟩
    obtain ⟨params, rest, rfl, -, hRest⟩ := List.map_eq_append_iff.1 hItems
    obtain ⟨arrow, last, rfl, hArrow, hLast⟩ := List.map_eq_cons_iff.1 hRest
    obtain ⟨last, rest, rfl, -, hRest⟩ := List.map_eq_cons_iff.1 hLast
    obtain rfl := List.map_eq_nil_iff.1 hRest
    exact ⟨params, last, by rw [toSexp_eq_symbol_iff.1 hArrow]⟩
  · rintro ⟨before, last, rfl⟩
    exact ⟨before.map toSexp, last.toSexp, by simp [toSexp]⟩

theorem paramsOfSexps_map_symbol (params : List String) :
    paramsOfSexps (params.map .symbol) = .ok params := by
  induction params with
  | nil => rfl
  | cons param params ih => rw [List.map_cons, paramsOfSexps, Sexp.symbol?, ih]; rfl

theorem ofSexps_map_toSexp {es : List (Expr String)} (h : ∀ e ∈ es, ofSexp e.toSexp = .ok e) :
    ofSexps (es.map toSexp) = .ok es := by
  induction es with
  | nil => rw [List.map_nil, ofSexps]
  | cons e es ih =>
      obtain ⟨hHead, hTail⟩ := List.forall_mem_cons.1 h
      rw [List.map_cons, ofSexps, hHead, ih hTail]
      rfl

/-- A canonical expression reads back from its tree. -/
theorem Canonical.ofSexp_toSexp {e : Expr String} (h : e.Canonical) :
    ofSexp e.toSexp = .ok e := by
  induction h with
  | number | string | bool | identifier => rw [toSexp, ofSexp]
  | conditional _ _ _ ihC ihT ihE =>
      rw [toSexp, ofSexp_conditional (Form.ofItems_conditional _ _ _), ihC, ihT, ihE]
      rfl
  | @lambda params body hSome hIf _ ih =>
      have hShape : ¬ConditionalShape (params.map .symbol ++ [.symbol Form.arrow, body.toSexp]) :=
        fun hShape => (conditionalShape_lambda_iff.1 hShape).elim hIf
      have hForm := Form.ofItems_lambda hShape
      obtain ⟨param, params, rfl⟩ := List.exists_cons_of_ne_nil hSome
      rw [List.map_cons] at hForm
      rw [toSexp, List.map_cons, ofSexp_lambda hForm, ih, ← List.map_cons,
        paramsOfSexps_map_symbol]
      rfl
  | @apply callee args hIf hArrow _ _ ihCallee ihArgs =>
      have hConditional : ¬ConditionalShape (callee.toSexp :: args.map toSexp) := fun hShape =>
        hIf (conditionalShape_apply_iff.1 hShape).1 (conditionalShape_apply_iff.1 hShape).2
      have hLambda : ¬LambdaShape ((callee :: args).map toSexp) := by
        rw [lambdaShape_apply_iff]
        rintro ⟨before, last, hItems⟩
        exact hArrow before last hItems
      have hForm := Form.ofItems_application hConditional hLambda
      rw [toSexp, toSexps_eq_map, ofSexp_application hForm, ihCallee, ofSexps_map_toSexp ihArgs]
      rfl

theorem canonical_of_ofSexps {items : List Sexp}
    (hItems : ∀ item ∈ items, ∀ e, ofSexp item = .ok e → e.Canonical) {es : List (Expr String)}
    (h : ofSexps items = .ok es) : ∀ e ∈ es, e.Canonical := by
  induction items generalizing es with
  | nil =>
      rw [ofSexps] at h
      cases h
      simp
  | cons item items ih =>
      obtain ⟨hHead, hTail⟩ := List.forall_mem_cons.1 hItems
      rw [ofSexps] at h
      cases hItem : ofSexp item <;> cases hRest : ofSexps items <;> rw [hItem, hRest] at h <;>
        cases h
      exact List.forall_mem_cons.2 ⟨hHead _ hItem, ih hTail hRest⟩

/-- Reading gives canonical expressions only. -/
theorem canonical_of_ofSexp (s : Sexp) : ∀ e, ofSexp s = .ok e → e.Canonical := by
  induction s using Sexp.form_induction with
  | number | string | bool | symbol =>
      intro e h
      rw [ofSexp] at h
      cases h
      constructor
  | @conditional items c t e hForm ihC ihT ihE =>
      intro _ h
      rw [ofSexp_conditional hForm] at h
      cases hC : ofSexp c <;> cases hT : ofSexp t <;> cases hE : ofSexp e <;>
        rw [hC, hT, hE] at h <;> cases h
      exact .conditional (ihC _ hC) (ihT _ hT) (ihE _ hE)
  | @lambda items params body hForm ih =>
      intro e h
      cases params with
      | nil =>
          rw [ofSexp_missingParameters hForm] at h
          cases h
      | cons param params =>
          rw [ofSexp_lambda hForm] at h
          cases hParams : paramsOfSexps (param :: params) <;> cases hBody : ofSexp body <;>
            rw [hParams, hBody] at h <;> cases h
          have hNames := eq_map_symbol_of_paramsOfSexps hParams
          refine .lambda ?_ (fun second hIf => ?_) (ih _ hBody)
          · rintro rfl
            cases hNames
          · -- With these two parameters the list would have been a conditional.
            rw [hIf] at hNames
            refine Form.not_conditionalShape_of_lambda hForm
              ⟨.symbol second, .symbol Form.arrow, body, ?_⟩
            rw [Form.eq_of_ofItems_lambda hForm, hNames]
            rfl
  | @application items hForm ih =>
      intro e h
      obtain ⟨hConditional, hLambda⟩ := Form.not_shape_of_application hForm
      cases items with
      | nil =>
          rw [ofSexp_emptyList hForm] at h
          cases h
      | cons first rest =>
          obtain ⟨ihFirst, ihRest⟩ := List.forall_mem_cons.1 ih
          have hTree := toSexp_of_ofSexp h
          rw [ofSexp_application hForm] at h
          cases hCallee : ofSexp first <;> cases hArgs : ofSexps rest <;>
            rw [hCallee, hArgs] at h <;> cases h
          rw [toSexp, toSexps_eq_map, Sexp.list.injEq] at hTree
          rw [← hTree] at hConditional hLambda
          refine .apply (fun hIf hLength => ?_) (fun before last hItems => ?_) (ihFirst _ hCallee)
            (canonical_of_ofSexps ihRest hArgs)
          · exact hConditional (conditionalShape_apply_iff.2 ⟨hIf, hLength⟩)
          · exact hLambda (lambdaShape_apply_iff.2 ⟨before, last, hItems⟩)

end Expr

namespace Program

/-- What is read from a tree and stored is the expression that the tree spells, and a tree is
refused where it spells none. -/
theorem map_expr?_ofSexp (s : Sexp) (names : Interner) :
    (ofSexp s names).1.map (·.expr? (ofSexp s names).2) = (Expr.ofSexp s).map some := by
  have hVerdict := verdict_ofSexp s names
  cases hProgram : ofSexp s names with
  | mk result names' =>
      rw [hProgram] at hVerdict
      cases result with
      | error e =>
          cases hExpr : Expr.ofSexp s <;> rw [hExpr] at hVerdict <;> cases hVerdict
          rfl
      | ok p =>
          obtain ⟨e, hTree, hSpells, -⟩ := exists_tree?_of_ofSexp hProgram
          rw [hSpells]
          exact congrArg Except.ok (congrArg (Option.map _) hTree)

theorem expr?_of_ofSexp {s : Sexp} {names names' : Interner} {p : Program}
    (h : ofSexp s names = (.ok p, names')) :
    ∃ e, p.expr? names' = some e ∧ Expr.ofSexp s = .ok e := by
  have hMap := map_expr?_ofSexp s names
  rw [h] at hMap
  cases hExpr : Expr.ofSexp s with
  | error e => rw [hExpr] at hMap; cases hMap
  | ok e => rw [hExpr] at hMap; exact ⟨e, Except.ok.inj hMap, rfl⟩

theorem exists_ofSexp_expr?_iff (s : Sexp) (names : Interner) (e : Expr String) :
    (∃ p names', ofSexp s names = (.ok p, names') ∧ p.expr? names' = some e) ↔
      Expr.ofSexp s = .ok e := by
  constructor
  · rintro ⟨p, names', h, hExpr⟩
    obtain ⟨e', hExpr', hRead⟩ := expr?_of_ofSexp h
    rw [hRead, Option.some.inj (hExpr.symm.trans hExpr')]
  · intro hRead
    have hMap := map_expr?_ofSexp s names
    cases hProgram : ofSexp s names with
    | mk result names' =>
        rw [hProgram, hRead] at hMap
        cases result with
        | error e => cases hMap
        | ok p => exact ⟨p, names', rfl, Except.ok.inj hMap⟩

/-- Reading loses nothing and gives exactly the canonical expressions. The expression of a program
writes back as the tree that the program was read from, so no two trees give the same program; and
an expression reads back from its own tree if and only if it is canonical. -/
theorem ofSexp_canonical :
    (∀ {s : Sexp} {i i' : Interner} {p : Program}, ofSexp s i = (.ok p, i') →
      ∃ e, p.expr? i' = some e ∧ e.Canonical ∧ e.toSexp = s) ∧
    (∀ {s t : Sexp} {i i' j j' : Interner} {p q : Program}, ofSexp s i = (.ok p, i') →
      ofSexp t j = (.ok q, j') → p.expr? i' = q.expr? j' → s = t) ∧
    ∀ (e : Expr String) (i : Interner),
      (∃ p i', ofSexp e.toSexp i = (.ok p, i') ∧ p.expr? i' = some e) ↔ e.Canonical := by
  refine ⟨fun {s i i' p} hs => ?_, fun {s t i i' j j' p q} hs ht hSame => ?_, fun e i => ?_⟩
  · obtain ⟨e, hExpr, hRead⟩ := expr?_of_ofSexp hs
    exact ⟨e, hExpr, Expr.canonical_of_ofSexp s e hRead, Expr.toSexp_of_ofSexp hRead⟩
  · obtain ⟨e, hExpr, hRead⟩ := expr?_of_ofSexp hs
    obtain ⟨e', hExpr', hRead'⟩ := expr?_of_ofSexp ht
    obtain rfl : e = e' := Option.some.inj (by rw [← hExpr, hSame, hExpr'])
    exact (Expr.toSexp_of_ofSexp hRead).symm.trans (Expr.toSexp_of_ofSexp hRead')
  · rw [exists_ofSexp_expr?_iff]
    exact ⟨Expr.canonical_of_ofSexp _ e, Expr.Canonical.ofSexp_toSexp⟩

/-- The word `if` may be the only parameter of a lambda but not the first of two. -/
theorem ofSexp_canonical_if_parameter :
    (∃ p i', ofSexp (.list [.symbol "if", .symbol "=>", .symbol "b"]) .empty = (.ok p, i') ∧
      ∃ e, p.expr? i' = some e ∧ e.Canonical ∧
        e.toSexp = .list [.symbol "if", .symbol "=>", .symbol "b"]) ∧
    ¬∃ p i', ofSexp (.list [.symbol "if", .symbol "c", .symbol "=>", .symbol "b"]) .empty =
        (.ok p, i') ∧ p.expr? i' = some (.lambda ["if", "c"] (.identifier "b")) := by
  have hOne : (Expr.lambda ["if"] (.identifier "b")).Canonical :=
    .lambda (by simp) (by simp) (.identifier "b")
  obtain ⟨p, i', hProgram, -⟩ := (ofSexp_canonical.2.2 _ .empty).2 hOne
  refine ⟨⟨p, i', hProgram, ofSexp_canonical.1 hProgram⟩, fun hTwo => ?_⟩
  have hCanonical := (ofSexp_canonical.2.2 (.lambda ["if", "c"] (.identifier "b")) .empty).1 hTwo
  cases hCanonical with
  | lambda _ hIf _ => exact hIf "c" rfl

end Program

end ArrowLisp
