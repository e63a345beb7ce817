import ArrowLisp.Proofs.Machine.Rewriting
import ArrowLisp.Proofs.Program.Answers

/-!
A program in two parts. Evaluating one program and then, where its value is bound to a name, another
one shows the same as evaluating the single program that applies a lambda with the second as its
body to the first. In the one case closures live in two arenas that call each other, in the other
in one.
-/

namespace ArrowLisp

namespace Machine

/-- Evaluate a program and then, where its value is bound to a name, another one. Each has its own
arena and is evaluated under its own interner. If the first one does not come to a value, that is
the end. -/
def evalInTurn (limit : Nat) (first : Program) (names₁ : Interner) (f : Name) (second : Program)
    (names₂ : Interner) (env : Environment Value) (next : Nat) : Outcome EvalError × Nat :=
  match eval limit names₁ first.arena first.root env next with
  | (.value v, next) => eval limit names₂ second.arena second.root (env.bind f v) next
  | ended => ended

variable {p q : Program} {names₁ names₂ names : Interner} {f x : Name}
  {env env' : Environment Value} {n n' : Nat} {seen : Observation EvalError}

theorem evalInTurn_of_value {limit : Nat} {v : Value} {m : Nat}
    (h : eval limit names₁ p.arena p.root env n = (.value v, m)) :
    evalInTurn limit p names₁ f q names₂ env n =
      eval limit names₂ q.arena q.root (env.bind f v) m := by
  rw [evalInTurn, h]

theorem evalInTurn_of_ne_value {limit : Nat}
    (h : ∀ v, (eval limit names₁ p.arena p.root env n).1 ≠ .value v) :
    evalInTurn limit p names₁ f q names₂ env n = eval limit names₁ p.arena p.root env n := by
  rw [evalInTurn]
  split
  · next v m hFirst => exact absurd (congrArg Prod.fst hFirst) (h v)
  · rfl

/-- What is seen of two programs that are evaluated in turn. -/
theorem eventually_evalInTurn_iff :
    Eventually (fun limit => (evalInTurn limit p names₁ f q names₂ env n).1) seen ↔
      ∃ r, EndsInTurn (Ends names₁ ⟨.eval ⟨p.arena, env⟩ p.root, [], n⟩)
        (fun v m => Ends names₂ ⟨.eval ⟨q.arena, env.bind f v⟩ q.root, [], m⟩) r ∧
        r.1.observe = seen := by
  constructor
  · rintro ⟨hSeen, limit, rfl⟩
    have hEnds : (evalInTurn limit p names₁ f q names₂ env n).1 ≠ .unfinished :=
      mt Outcome.observe_eq_unfinished_iff.2 hSeen
    refine ⟨evalInTurn limit p names₁ f q names₂ env n, ?_, rfl⟩
    by_cases hValue : ∃ v, (eval limit names₁ p.arena p.root env n).1 = .value v
    · obtain ⟨v, hValue⟩ := hValue
      have hFirst : eval limit names₁ p.arena p.root env n = (.value v, _) := Prod.ext hValue rfl
      have hFirstEnds : Ends names₁ ⟨.eval ⟨p.arena, env⟩ p.root, [], n⟩
          (eval limit names₁ p.arena p.root env n) := ends_run (by rw [← eval, hValue]; simp)
      rw [hFirst] at hFirstEnds
      rw [evalInTurn_of_value hFirst] at hEnds ⊢
      exact .value hFirstEnds (ends_run hEnds)
    · have hFails : ∀ v, (eval limit names₁ p.arena p.root env n).1 ≠ .value v :=
        fun v hSame => hValue ⟨v, hSame⟩
      rw [evalInTurn_of_ne_value hFails] at hEnds ⊢
      exact .fails (ends_run hEnds) hFails
  · rintro ⟨r, hTurn, rfl⟩
    cases hTurn with
    | value hFirst hSecond =>
        obtain ⟨limit₁, hRun₁⟩ := hFirst.exists_limit
        obtain ⟨limit₂, hRun₂⟩ := hSecond.exists_limit
        have hTurn : evalInTurn (limit₁ + limit₂) p names₁ f q names₂ env n = r := by
          rw [evalInTurn_of_value (hRun₁ limit₂), Nat.add_comm]
          exact hRun₂ limit₁
        exact ⟨mt Outcome.observe_eq_unfinished_iff.1 hSecond.ne_unfinished, limit₁ + limit₂,
          congrArg (fun r => r.1.observe) hTurn⟩
    | fails hFirst hFails =>
        obtain ⟨limit, hRun⟩ := hFirst.exists_limit
        have hEval : eval limit names₁ p.arena p.root env n = r := hRun 0
        have hTurn : evalInTurn limit p names₁ f q names₂ env n = r := by
          rw [evalInTurn_of_ne_value (hEval ▸ hFails), hEval]
        exact ⟨mt Outcome.observe_eq_unfinished_iff.1 hFirst.ne_unfinished, limit,
          congrArg (fun r => r.1.observe) hTurn⟩

/-- Two runs in turn end as two others do of which each has a counterpart, step by step. -/
theorem EndsInTurn.transfer {first first' : Outcome EvalError × Nat → Prop}
    {second second' : Value → Nat → Outcome EvalError × Nat → Prop}
    {S : Outcome EvalError × Nat → Outcome EvalError × Nat → Prop} {r : Outcome EvalError × Nat}
    (hObserve : ∀ r r', S r r' → r.1.observe = r'.1.observe)
    (hFirst : ∀ r, first r → ∃ r', first' r' ∧ S r r')
    (hSecond : ∀ v w m m' r, S (.value v, m) (.value w, m') → second v m r →
      ∃ r', second' w m' r' ∧ r.1.observe = r'.1.observe)
    (h : EndsInTurn first second r) :
    ∃ r', EndsInTurn first' second' r' ∧ r.1.observe = r'.1.observe := by
  cases h with
  | @value v m r hValue hRest =>
      obtain ⟨⟨o, m'⟩, hValue', hRelated⟩ := hFirst _ hValue
      obtain ⟨w, rfl⟩ := Outcome.exists_value_of_observe_eq (hObserve _ _ hRelated).symm
      obtain ⟨r', hRest', hSame⟩ := hSecond v w m m' r hRelated hRest
      exact ⟨r', .value hValue' hRest', hSame⟩
  | fails h hFails =>
      obtain ⟨r', h', hRelated⟩ := hFirst _ h
      refine ⟨r', .fails h' fun w hValue => ?_, hObserve _ _ hRelated⟩
      have hSame := hObserve _ _ hRelated
      rw [hValue] at hSame
      obtain ⟨v, hValue⟩ := Outcome.exists_value_of_observe_eq hSame
      exact hFails v hValue

/-- The two ways show the same if the parts of the single program stand for the two programs. -/
theorem eventually_evalInTurn_iff_of_sound {R₁ R₂ : Coupling} (hR₁ : R₁.Sound)
    (hCatch₁ : R₁.CatchesUp names₁ names) (hR₂ : R₂.Sound) (hCatch₂ : R₂.CatchesUp names₂ names)
    {a : Arena} {id : NodeId} {body arg : Expr Name}
    (hTree : a.tree? id = some (.apply (.lambda [x] body) [arg]))
    (hFirst : ∀ id', a.tree? id' = some arg →
      R₁.place ⟨p.arena, env⟩ p.root ⟨a, env'⟩ id')
    (hSecond : ∀ id' v w, a.tree? id' = some body → R₁.value v w →
      R₂.place ⟨q.arena, env.bind f v⟩ q.root ⟨a, env'.bind x w⟩ id')
    (hNext : ∀ k, R₁.identity (n + k) (n' + 1 + k))
    (hIdentity : ∀ k l, R₁.identity k l → R₂.identity k l) (seen : Observation EvalError) :
    Eventually (fun limit => (evalInTurn limit p names₁ f q names₂ env n).1) seen ↔
      Eventually (fun limit => (eval limit names a id env' n').1) seen := by
  obtain ⟨argId, bodyId, hArg, hBody, hEnds⟩ := ends_apply_lambda_iff hTree
  have hStart : R₁.Moments R₁.place ⟨.eval ⟨p.arena, env⟩ p.root, [], n⟩
      ⟨.eval ⟨a, env'⟩ argId, [], n' + 1⟩ := ⟨.eval (hFirst argId hArg), .nil, hNext⟩
  have hMiddle : ∀ {v w : Value} {m m' : Nat}, R₁.Results (.value v, m) (.value w, m') →
      R₂.Moments R₂.place ⟨.eval ⟨q.arena, env.bind f v⟩ q.root, [], m⟩
        ⟨.eval ⟨a, env'.bind x w⟩ bodyId, [], m'⟩ := by
    intro v w m m' hResults
    cases hResults.outcome with
    | value hValue =>
        exact ⟨.eval (hSecond bodyId v w hBody hValue), .nil,
          fun k => hIdentity _ _ (hResults.identity k)⟩
  rw [eventually_evalInTurn_iff]
  simp only [eval, eventually_run_iff, hEnds]
  constructor
  · rintro ⟨r, hTurn, rfl⟩
    obtain ⟨r', hTurn', hSame⟩ := hTurn.transfer (S := R₁.Results)
      (fun _ _ h => hR₁.observe_eq h.outcome) (fun r h => hR₁.ends hCatch₁ hStart h)
      fun v w m m' r hRelated h => by
        obtain ⟨r', hEnds', hResults⟩ := hR₂.ends hCatch₂ (hMiddle hRelated) h
        exact ⟨r', hEnds', hR₂.observe_eq hResults.outcome⟩
    exact ⟨r', hTurn', hSame.symm⟩
  · rintro ⟨r, hTurn, rfl⟩
    obtain ⟨r', hTurn', hSame⟩ := hTurn.transfer (S := fun r' r => R₁.Results r r')
      (fun _ _ h => (hR₁.observe_eq h.outcome).symm) (fun r h => hR₁.ends_back hCatch₁ hStart h)
      fun v w m m' r hRelated h => by
        obtain ⟨r', hEnds', hResults⟩ := hR₂.ends_back hCatch₂ (hMiddle hRelated) h
        exact ⟨r', hEnds', (hR₂.observe_eq hResults.outcome).symm⟩
    exact ⟨r', hTurn', hSame.symm⟩

end Machine

/-- The tree `((f => second) first)`. -/
def Sexp.binding (f : String) (first second : Sexp) : Sexp :=
  .list [.list [.symbol f, .symbol Form.arrow, second], first]

theorem Expr.ofSexp_binding {s₁ s₂ : Sexp} {t₁ t₂ : Expr String} (h₁ : ofSexp s₁ = .ok t₁)
    (h₂ : ofSexp s₂ = .ok t₂) (f : String) :
    ofSexp (.binding f s₁ s₂) = .ok (.apply (.lambda [f] t₂) [t₁]) := by
  have hLambdaForm : Form.ofItems [.symbol f, .symbol Form.arrow, s₂] = .lambda [.symbol f] s₂ := by
    simp [Form.ofItems, Form.conditional?, Form.lambda?, Sexp.isSymbol]
  have hForm : Form.ofItems [.list [.symbol f, .symbol Form.arrow, s₂], s₁] =
      .application [.list [.symbol f, .symbol Form.arrow, s₂], s₁] := by
    simp [Form.ofItems, Form.conditional?, Form.lambda?, Sexp.isSymbol]
  have hLambda : ofSexp (.list [.symbol f, .symbol Form.arrow, s₂]) = .ok (.lambda [f] t₂) := by
    rw [ofSexp_lambda hLambdaForm, h₂]
    rfl
  rw [Sexp.binding, ofSexp_application hForm, hLambda, ofSexps, ofSexps, h₁]
  rfl

namespace Program

variable {i : Interner} {a : Arena} {id : NodeId} {f : String} {t₁ t₂ : Expr String}

/-- The names and the parts of a lambda that is applied where it stands. -/
theorem exists_apply_lambda_of_spells (h : a.Spells i id (.apply (.lambda [f] t₂) [t₁])) :
    ∃ x e₁ e₂, i.find? f = some x ∧ a.tree? id = some (.apply (.lambda [x] e₂) [e₁]) ∧
      (∀ id', a.tree? id' = some e₁ → a.Spells i id' t₁) ∧
      ∀ id', a.tree? id' = some e₂ → a.Spells i id' t₂ := by
  obtain ⟨e, hTree, hIssued, hMap⟩ := h
  obtain ⟨callee, args, rfl⟩ : ∃ callee args, e = .apply callee args := by
    cases e <;> simp [Expr.map] at hMap ⊢
  rw [Expr.map, Expr.mapAll_eq_map, Expr.apply.injEq, List.map_eq_singleton_iff] at hMap
  obtain ⟨hCallee, e₁, rfl, hArg⟩ := hMap
  obtain ⟨params, e₂, rfl⟩ : ∃ params e₂, callee = .lambda params e₂ := by
    cases callee <;> simp [Expr.map] at hCallee ⊢
  rw [Expr.map, Expr.lambda.injEq, List.map_eq_singleton_iff] at hCallee
  obtain ⟨⟨x, rfl, hName⟩, hBody⟩ := hCallee
  simp only [Expr.names, Expr.namesAll_eq_flatMap, List.flatMap_singleton, List.forall_mem_append,
    List.forall_mem_singleton] at hIssued
  obtain ⟨⟨hIssuedName, hIssuedBody⟩, hIssuedArg⟩ := hIssued
  exact ⟨x, e₁, e₂, hName ▸ hIssuedName.find?_lookup, hTree,
    fun _ hTree' => ⟨e₁, hTree', hIssuedArg, hArg⟩,
    fun _ hTree' => ⟨e₂, hTree', hIssuedBody, hBody⟩⟩

/-- Under one interner, in every environment. -/
theorem eventually_binding_iff {p q r : Program} {k : Interner} {x : Name}
    (hp : p.arena.Spells k p.root t₁) (hq : q.arena.Spells k q.root t₂)
    (hr : r.arena.Spells k r.root (.apply (.lambda [f] t₂) [t₁])) (hx : k.find? f = some x)
    {env : Environment Value} {next : Nat} (hEnv : env.Hereditarily fun c => c.identity < next)
    (seen : Observation EvalError) :
    Eventually (fun limit => (Machine.evalInTurn limit p k x q k env next).1) seen ↔
      Eventually (fun limit => (Machine.eval limit k r.arena r.root env next).1) seen := by
  obtain ⟨y, e₁, e₂, hy, hTree, hArg, hBody⟩ := exists_apply_lambda_of_spells hr
  cases hx.symm.trans hy
  -- The lambda of the single program takes an identity that the two programs do not need.
  let P : Pairing next (next + 1) := .kept (Nat.le_succ next)
  have hKept : env.Hereditarily fun c => P.Extended c.identity c.identity :=
    hEnv.mono fun c hLt => .inl ⟨rfl, hLt⟩
  have hSound : (Machine.Coupling.rewriting k P.Extended).Sound :=
    Machine.Coupling.sound_rewriting P.biUnique_extended
  refine Machine.eventually_evalInTurn_iff_of_sound hSound Machine.Coupling.catchesUp_rewriting
    hSound Machine.Coupling.catchesUp_rewriting hTree (fun id' hId => ?_)
    (fun id' v w hId hValue => ?_) P.extended_add (fun _ _ h => h) seen
  · obtain ⟨e, hP, hR⟩ := hp.exists_tree? (hArg id' hId)
    exact ⟨.same, .self hKept, .trees hP hR (Expr.rewrites_self fun _ _ => rfl)⟩
  · obtain ⟨e, hQ, hR⟩ := hq.exists_tree? (hBody id' hId)
    have hBody : Expr.Rewrites (Expr.Rewriting.same.under [x] [x]) e e :=
      Expr.rewrites_self fun _ _ => Expr.Rewriting.under_self (.inr rfl)
    exact ⟨_, (Environment.Rewrites.self hKept).bind hValue x x, .trees hQ hR hBody⟩

/-- Under interners that give different names, in environments that correspond. -/
theorem eventually_binding_iff_of_corresponds {p q r : Program} {k₁ k₂ k₃ : Interner} {x : Name}
    {env env' : Environment Value} {next : Nat}
    (hEnv : env.Corresponds k₁ k₃ (fun k l => k = l ∧ k < next) env') (hLater : k₁.Extends k₂)
    (hp : p.arena.Spells k₁ p.root t₁) (hq : q.arena.Spells k₂ q.root t₂)
    (hr : r.arena.Spells k₃ r.root (.apply (.lambda [f] t₂) [t₁])) (hx : k₂.find? f = some x)
    (seen : Observation EvalError) :
    Eventually (fun limit => (Machine.evalInTurn limit p k₁ x q k₂ env next).1) seen ↔
      Eventually (fun limit => (Machine.eval limit k₃ r.arena r.root env' next).1) seen := by
  obtain ⟨y, e₁, e₂, hy, hTree, hArg, hBody⟩ := exists_apply_lambda_of_spells hr
  -- The lambda of the single program takes an identity that the two programs do not need.
  let P : Pairing next (next + 1) := .kept (Nat.le_succ next)
  have hEnv₁ : env.Corresponds k₁ k₃ P.Extended env' :=
    hEnv.of_extends (.refl k₁) (.refl k₃) fun _ _ => Or.inl
  have hEnv₂ : env.Corresponds k₂ k₃ P.Extended env' :=
    hEnv₁.of_extends hLater (.refl k₃) fun _ _ h => h
  have hSound : ∀ i, (Machine.Coupling.alike (.sameTexts i k₃ P.Extended)).Sound := fun i =>
    Machine.Coupling.sound_alike (Likeness.stable_sameTexts P.biUnique_extended)
  have hKeeps : ∀ i, (Machine.Coupling.alike (.sameTexts i k₃ P.Extended)).KeepsStep i k₃ :=
    fun i => Machine.Coupling.keepsStep_alike (Likeness.stable_sameTexts P.biUnique_extended)
      fun _ _ => Likeness.lookup_eq_of_sameTexts
  refine Machine.eventually_evalInTurn_iff_of_sound (hSound k₁) (hKeeps k₁).catchesUp (hSound k₂)
    (hKeeps k₂).catchesUp hTree (fun id' hId => ?_) (fun id' v w hId hValue => ?_)
    P.extended_add (fun _ _ h => h) seen
  · exact ⟨⟨t₁, hp, hArg id' hId⟩, hEnv₁.alikeOn _⟩
  · have hValue₂ : v.Alike (.sameTexts k₂ k₃ P.Extended) w :=
      Value.Alike.of_extends hValue hLater (.refl k₃) fun _ _ h => h
    exact ⟨⟨t₂, hq, hBody id' hId⟩, (hEnv₂.bind hx hy hValue₂).alikeOn _⟩

/-- A program can be split. The tree `((f => second) first)` is read if both of its parts are, and
its evaluation shows what is seen if the parts are evaluated in turn, in arenas of their own and the
second one with the value of the first under the name `f`; it also fails as the first part does. In
one session, after everything has been read, this holds in every environment in which no closure has
an identity that is still to be given. It also holds if the
two ways are taken in sessions of their own, with names given in another order and more names given
between the evaluations, in an environment that belongs to the session before. -/
theorem eval_binding {s₁ s₂ : Sexp} {i₁ i₂ j₁ j₂ : Interner} {p q : Program}
    (hp : ofSexp s₁ i₁ = (.ok p, j₁)) (hq : ofSexp s₂ i₂ = (.ok q, j₂)) (f : String)
    (i₃ : Interner) :
    ∃ r j₃, ofSexp (.binding f s₁ s₂) i₃ = (.ok r, j₃) ∧
      (∀ {k : Interner} {x : Name} {env : Environment Value} {next : Nat},
        j₁.Extends k → j₂.Extends k → j₃.Extends k → k.find? f = some x →
        env.Hereditarily (fun c => c.identity < next) → ∀ seen,
          Eventually (fun limit => (Machine.evalInTurn limit p k x q k env next).1) seen ↔
            Eventually (fun limit => (Machine.eval limit k r.arena r.root env next).1) seen) ∧
      ∀ {i k₁ k₂ k₃ : Interner} {x : Name} {env : Environment Value} {next : Nat},
        env.Corresponds i i (fun k l => k = l ∧ k < next) env →
        i.Extends k₁ → j₁.Extends k₁ → k₁.Extends k₂ → j₂.Extends k₂ → k₂.find? f = some x →
        i.Extends k₃ → j₃.Extends k₃ → ∀ seen,
          Eventually (fun limit => (Machine.evalInTurn limit p k₁ x q k₂ env next).1) seen ↔
            Eventually (fun limit => (Machine.eval limit k₃ r.arena r.root env next).1) seen := by
  obtain ⟨e₁, -, hRead₁, -⟩ := exists_tree?_of_ofSexp hp
  obtain ⟨e₂, -, hRead₂, -⟩ := exists_tree?_of_ofSexp hq
  have hSpells₁ := spells_of_ofSexp hp hRead₁
  have hSpells₂ := spells_of_ofSexp hq hRead₂
  have hRead := Expr.ofSexp_binding hRead₁ hRead₂ f
  obtain ⟨r, hr⟩ := exists_ofSexp hRead i₃
  have hSpells := spells_of_ofSexp hr hRead
  refine ⟨r, _, hr, fun {k x env next} h₁ h₂ h₃ hx hEnv => ?_,
    fun {i k₁ k₂ k₃ x env next} hEnv hi₁ h₁ h₁₂ h₂ hx hi₃ h₃ => ?_⟩
  · exact eventually_binding_iff (hSpells₁.of_extends h₁) (hSpells₂.of_extends h₂)
      (hSpells.of_extends h₃) hx hEnv
  · exact eventually_binding_iff_of_corresponds (hEnv.of_extends hi₁ hi₃ fun _ _ h => h) h₁₂
      (hSpells₁.of_extends h₁) (hSpells₂.of_extends h₂) (hSpells.of_extends h₃) hx

/-- The first program makes a closure that the second one calls: `(x => x)` and then `(f "a")`. -/
theorem eval_binding_call :
    ∃ (p q r : Program) (j₁ j₂ j₃ : Interner) (f : Name),
      ofSexp (.binding "f" (.list [.symbol "x", .symbol "=>", .symbol "x"])
        (.list [.symbol "f", .string "a"])) .empty = (.ok r, j₃) ∧
      ofSexp (.list [.symbol "x", .symbol "=>", .symbol "x"]) j₃ = (.ok p, j₁) ∧
      ofSexp (.list [.symbol "f", .string "a"]) j₁ = (.ok q, j₂) ∧
      (∀ seen,
        Eventually (fun limit => (Machine.evalInTurn limit p j₂ f q j₂ .empty 0).1) seen ↔
          Eventually (fun limit => (Machine.eval limit j₂ r.arena r.root .empty 0).1) seen) ∧
      (∀ seen,
        Eventually (fun limit => (Machine.evalInTurn limit p j₁ f q j₂ .empty 0).1) seen ↔
          Eventually (fun limit => (Machine.eval limit j₃ r.arena r.root .empty 0).1) seen) ∧
      Eventually (fun limit => (Machine.eval limit j₃ r.arena r.root .empty 0).1)
        (.string "a") := by
  have hFirst : Expr.ofSexp (.list [.symbol "x", .symbol "=>", .symbol "x"]) =
      .ok (.lambda ["x"] (.identifier "x")) := by cbv
  have hSecond : Expr.ofSexp (.list [.symbol "f", .string "a"]) =
      .ok (.apply (.identifier "f") [.string "a"]) := by cbv
  obtain ⟨r, hSingle, hSeen⟩ : ∃ r : Program,
      (ofSexp (.binding "f" (.list [.symbol "x", .symbol "=>", .symbol "x"])
        (.list [.symbol "f", .string "a"])) .empty).1 = .ok r ∧
      ∀ names, Eventually (fun limit => (Machine.eval limit names r.arena r.root .empty 0).1)
        (.string "a") :=
    ⟨⟨⟨#[.identifier ⟨0⟩, .string "a", .apply ⟨0⟩ ⟨0, 1⟩, .lambda ⟨0, 1⟩ ⟨2⟩, .identifier ⟨1⟩,
      .lambda ⟨1, 1⟩ ⟨4⟩, .apply ⟨3⟩ ⟨1, 1⟩], #[⟨1⟩, ⟨5⟩], #[⟨0⟩, ⟨1⟩]⟩, ⟨6⟩⟩, by cbv,
      fun _ => ⟨by decide, 20, rfl⟩⟩
  obtain ⟨j₃, hr⟩ : ∃ j₃, ofSexp (.binding "f" (.list [.symbol "x", .symbol "=>", .symbol "x"])
      (.list [.symbol "f", .string "a"])) .empty = (.ok r, j₃) := ⟨_, Prod.ext hSingle rfl⟩
  obtain ⟨p, hp⟩ := exists_ofSexp hFirst j₃
  obtain ⟨q, hq⟩ := exists_ofSexp hSecond
    (ofSexp (.list [.symbol "x", .symbol "=>", .symbol "x"]) j₃).2
  obtain ⟨r', j, hr', hOne, hSeveral⟩ := eval_binding hp hq "f" .empty
  cases hr.symm.trans hr'
  obtain ⟨f, hName⟩ := (spells_of_ofSexp hq hSecond).exists_name (u := "f") (by simp [Expr.names])
  have h₃₁ := extends_of_ofSexp hp
  have h₁₂ := extends_of_ofSexp hq
  have hEnv : (Environment.empty : Environment Value).Corresponds .empty .empty
      (fun k l => k = l ∧ k < 0) .empty := .empty
  exact ⟨p, q, r, _, _, j₃, f, hr, hp, hq,
    hOne h₁₂ (.refl _) (h₃₁.trans h₁₂) hName .empty,
    hSeveral hEnv ((extends_of_ofSexp hr).trans h₃₁) (.refl _) h₁₂ (.refl _) hName
      (extends_of_ofSexp hr) (.refl j₃), hSeen j₃⟩

end Program

end ArrowLisp
