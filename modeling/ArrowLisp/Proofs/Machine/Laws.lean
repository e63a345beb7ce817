import ArrowLisp.Proofs.Machine.Rewriting
import ArrowLisp.Proofs.Pairing

/-!
Laws of expressions. A program can be changed at any place without anything being seen of it:
parameters can be renamed, a conditional with a constant condition can be replaced by the branch
that it takes, and a lambda that is applied to a literal by its body with the literal in place of
the parameter. Each law holds in every environment, and it says of both programs that one of them
ends if the other does.
-/

namespace ArrowLisp

open ArrowLisp.Expr (Rewriting)

variable {names : Interner} {arena arena' : Arena} {id id' : NodeId}

/-- Literals have values, the same ones everywhere. -/
theorem Expr.IsLiteral.exists_value {l : Expr Name} (h : l.IsLiteral) :
    ∃ v : Value, (∀ env, l.value? env = some v) ∧ ∀ names B, v.Rewrites names B v := by
  cases h with
  | number x => exact ⟨.number x, fun _ => rfl, fun _ _ => .number x⟩
  | string s => exact ⟨.string s, fun _ => rfl, fun _ _ => .string s⟩
  | bool b => exact ⟨.bool b, fun _ => rfl, fun _ _ => .bool b⟩

/-- Where a name is bound to the value of a literal, the literal may be put for the name. -/
theorem Environment.Rewrites.literal {B : Nat → Nat → Prop} {env : Environment Value} {x : Name}
    {l : Expr Name} {v : Value} (hEnv : env.Hereditarily fun c => B c.identity c.identity)
    (hLiteral : ∀ env, l.value? env = some v) (hValue : v.Rewrites names B v) :
    (env.bind x v).Rewrites names B (fun z t => t = if z = x then l else .identifier z) env := by
  rintro z _ rfl
  rw [lookup_bind]
  split
  · rw [hLiteral]
    exact ⟨.some hValue, nofun⟩
  · exact self hEnv z _ rfl

namespace Machine

/-- Of an expression and of what it can be rewritten into the same is seen. -/
theorem eventually_eval_iff_of_rewrites {N : Rewriting Name} {B : Nat → Nat → Prop}
    {e e' : Expr Name} {env env' : Environment Value} {n n' : Nat}
    (hTree : arena.tree? id = some e) (hTree' : arena'.tree? id' = some e') (h : e.Rewrites N e')
    (hEnv : env.Rewrites names B N env') (hUnique : Relator.BiUnique B)
    (hIdentity : ∀ k, B (n + k) (n' + k)) (seen : Observation EvalError) :
    Eventually (fun limit => (eval limit names arena id env n).1) seen ↔
      Eventually (fun limit => (eval limit names arena' id' env' n').1) seen := by
  have hStart : (Coupling.rewriting names B).Moments (Coupling.rewriting names B).place
      ⟨.eval ⟨arena, env⟩ id, [], n⟩ ⟨.eval ⟨arena', env'⟩ id', [], n'⟩ :=
    ⟨.eval ⟨N, hEnv, .trees hTree hTree' h⟩, .nil, hIdentity⟩
  exact (Coupling.sound_rewriting hUnique).eventually_iff Coupling.catchesUp_rewriting hStart seen

/-- Substitution. A lambda that is applied to a literal comes to what its body comes to with the
literal in place of the parameter. Lambdas in the body that declare the parameter themselves are
left as they are. The environment is any in which no closure has an identity that is still to be
given. -/
theorem beta_literal {x : Name} {body l : Expr Name} (hLiteral : l.IsLiteral)
    (hTree : arena.tree? id = some (.apply (.lambda [x] body) [l]))
    (hTree' : arena'.tree? id' = some (body.subst x l)) {env : Environment Value} {next : Nat}
    (hEnv : env.Hereditarily fun c => c.identity < next) (names : Interner)
    (seen : Observation EvalError) :
    Eventually (fun limit => (eval limit names arena id env next).1) seen ↔
      Eventually (fun limit => (eval limit names arena' id' env next).1) seen := by
  obtain ⟨v, hValue, hSelf⟩ := hLiteral.exists_value
  obtain ⟨argId, bodyId, hArg, hBody, hEnds⟩ := ends_apply_lambda_iff hTree
  -- The lambda takes an identity that the other program does not need.
  let P : Pairing (next + 1) next := (Pairing.kept (Nat.le_succ next)).symm
  have hKept : env.Hereditarily fun c => P.Extended c.identity c.identity :=
    hEnv.mono fun c hLt => .inl ⟨rfl, hLt⟩
  have hRewrites : body.Rewrites (fun z t => t = if z = x then l else .identifier z)
      (body.subst x l) := by
    refine Expr.rewrites_subst (by simp) (fun z _ hNe => by simp [hNe]) fun z _ hSame => ?_
    subst hSame
    cases hLiteral
  have hArgument : ∀ r, Ends names ⟨.eval ⟨arena, env⟩ argId, [], next + 1⟩ r ↔
      r = (.value v, next + 1) := fun r =>
    (ends_iff_of_steps (steps_ret_of_value? hArg (hValue env) [] _)).trans (ends_iff_of_done rfl)
  have hBinding : ∀ r, Ends names ⟨.eval ⟨arena, env⟩ id, [], next⟩ r ↔
      Ends names ⟨.eval ⟨arena, env.bind x v⟩ bodyId, [], next + 1⟩ r := fun r =>
    (hEnds names env next r).trans (endsInTurn_iff_of_value hArgument)
  refine Iff.trans ?_ (eventually_eval_iff_of_rewrites hBody hTree' hRewrites
    (.literal hKept hValue (hSelf _ _)) P.biUnique_extended P.extended_add seen)
  simp only [eval, eventually_run_iff, hBinding]

/-- A lambda in the body declares the parameter again and calls a closure from the environment. -/
theorem beta_literal_shadowed :
    ∃ (arena arena' : Arena) (id id' : NodeId) (env : Environment Value),
      arena.tree? id = some (.apply (.lambda [⟨0⟩] (.apply (.lambda [⟨0⟩]
        (.apply (.identifier ⟨1⟩) [.identifier ⟨0⟩])) [.identifier ⟨0⟩])) [.bool true]) ∧
      arena'.tree? id' = some (.apply (.lambda [⟨0⟩]
        (.apply (.identifier ⟨1⟩) [.identifier ⟨0⟩])) [.bool true]) ∧
      (∀ seen, Eventually (fun limit => (eval limit .empty arena id env 1).1) seen ↔
        Eventually (fun limit => (eval limit .empty arena' id' env 1).1) seen) ∧
      Eventually (fun limit => (eval limit .empty arena' id' env 1).1) (.bool true) := by
  refine ⟨⟨#[.identifier ⟨1⟩, .identifier ⟨0⟩, .apply ⟨0⟩ ⟨0, 1⟩, .lambda ⟨0, 1⟩ ⟨2⟩,
      .apply ⟨3⟩ ⟨1, 1⟩, .lambda ⟨0, 1⟩ ⟨4⟩, .bool true, .apply ⟨5⟩ ⟨2, 1⟩],
      #[⟨1⟩, ⟨1⟩, ⟨6⟩], #[⟨0⟩]⟩,
    ⟨#[.identifier ⟨1⟩, .identifier ⟨0⟩, .apply ⟨0⟩ ⟨0, 1⟩, .lambda ⟨0, 1⟩ ⟨2⟩, .bool true,
      .apply ⟨3⟩ ⟨1, 1⟩], #[⟨1⟩, ⟨4⟩], #[⟨0⟩]⟩, ⟨7⟩, ⟨5⟩,
    .bind .empty ⟨1⟩ (.closure ⟨0, [⟨0⟩], ⟨0⟩, .empty, ⟨#[.identifier ⟨0⟩], #[], #[]⟩⟩),
    rfl, rfl, ?_⟩
  exact ⟨beta_literal (.bool true) rfl rfl
    (Environment.Hereditarily.empty.bind (.closure Nat.zero_lt_one (by simp)) _) .empty,
    nofun, 20, rfl⟩

/-- Constant folding. A conditional with a constant condition can be replaced, at any place of a
program, by the branch that it takes. Nothing is asked of the other branch. -/
theorem fold_constant_condition {C : Expr.Context Name} {b : Bool} {t e : Expr Name}
    (hTree : arena.tree? id = some (C.fill (.conditional (.bool b) t e)))
    (hTree' : arena'.tree? id' = some (C.fill (if b then t else e))) (names : Interner)
    (env : Environment Value) (next : Nat) (seen : Observation EvalError) :
    Eventually (fun limit => (eval limit names arena id env next).1) seen ↔
      Eventually (fun limit => (eval limit names arena' id' env next).1) seen := by
  have hBranch : ∀ N : Rewriting Name, (∀ x, True → N x (.identifier x)) →
      Expr.Rewrites N (.conditional (.bool b) t e) (if b then t else e) := fun N hN =>
    .branch b (Expr.rewrites_self fun x _ => hN x trivial)
  have hRewrites := Expr.rewrites_fill (N := .same) (fun _ => hBranch) C (fun _ _ => trivial)
    fun _ _ => rfl
  exact eventually_eval_iff_of_rewrites hTree hTree' hRewrites
    (.self fun v _ => .of_forall (fun _ => rfl) v) biUnique_eq (fun _ => rfl) seen

/-- The conditional is the body of a closure that is called later, and the branch that is dropped
would fail. -/
theorem fold_constant_condition_in_closure :
    ∃ (arena arena' : Arena) (id id' : NodeId),
      arena.tree? id = some (.apply (.lambda [⟨0⟩] (.apply (.identifier ⟨0⟩) [.string "a"]))
        [.lambda [⟨1⟩] (.conditional (.bool true) (.identifier ⟨1⟩) (.identifier ⟨2⟩))]) ∧
      arena'.tree? id' = some (.apply (.lambda [⟨0⟩] (.apply (.identifier ⟨0⟩) [.string "a"]))
        [.lambda [⟨1⟩] (.identifier ⟨1⟩)]) ∧
      (∀ seen, Eventually (fun limit => (eval limit .empty arena id .empty 0).1) seen ↔
        Eventually (fun limit => (eval limit .empty arena' id' .empty 0).1) seen) ∧
      Eventually (fun limit => (eval limit .empty arena' id' .empty 0).1) (.string "a") := by
  refine ⟨⟨#[.identifier ⟨0⟩, .string "a", .apply ⟨0⟩ ⟨0, 1⟩, .lambda ⟨0, 1⟩ ⟨2⟩, .bool true,
      .identifier ⟨1⟩, .identifier ⟨2⟩, .conditional ⟨4⟩ ⟨5⟩ ⟨6⟩, .lambda ⟨1, 1⟩ ⟨7⟩,
      .apply ⟨3⟩ ⟨1, 1⟩], #[⟨1⟩, ⟨8⟩], #[⟨0⟩, ⟨1⟩]⟩,
    ⟨#[.identifier ⟨0⟩, .string "a", .apply ⟨0⟩ ⟨0, 1⟩, .lambda ⟨0, 1⟩ ⟨2⟩, .identifier ⟨1⟩,
      .lambda ⟨1, 1⟩ ⟨4⟩, .apply ⟨3⟩ ⟨1, 1⟩], #[⟨1⟩, ⟨5⟩], #[⟨0⟩, ⟨1⟩]⟩, ⟨9⟩, ⟨6⟩, rfl, rfl, ?_⟩
  exact ⟨fold_constant_condition (b := true) (t := .identifier ⟨1⟩) (e := .identifier ⟨2⟩)
    (C := .arg (.lambda [⟨0⟩] (.apply (.identifier ⟨0⟩) [.string "a"])) [] (.body [⟨1⟩] .hole) [])
    rfl rfl .empty .empty 0, nofun, 20, rfl⟩

/-- Renaming. All parameters of a lambda that have one name can get another that does not occur in
the program, with the identifiers that they bind. Whether the environment binds the new name does
not matter. -/
theorem rename_parameter {C : Expr.Context Name} {params : List Name} {body : Expr Name}
    {x y : Name} (hParam : x ∈ params) (hFresh : y ∉ (C.fill (.lambda params body)).names)
    (hTree : arena.tree? id = some (C.fill (.lambda params body)))
    (hTree' : arena'.tree? id' = some (C.fill (.lambda
      (params.map fun z => if z = x then y else z) (body.subst x (.identifier y)))))
    (names : Interner) (env : Environment Value) (next : Nat) (seen : Observation EvalError) :
    Eventually (fun limit => (eval limit names arena id env next).1) seen ↔
      Eventually (fun limit => (eval limit names arena' id' env next).1) seen := by
  have hRewrites := Expr.rewrites_fill (N := .same) (S := (· ≠ y))
    (fun hNames N hN => Expr.rewrites_rename hParam (fun hMem => hNames y hMem rfl) hN) C
    (fun z hz hSame => hFresh (hSame ▸ hz)) fun _ _ => rfl
  exact eventually_eval_iff_of_rewrites hTree hTree' hRewrites
    (.self fun v _ => .of_forall (fun _ => rfl) v) biUnique_eq (fun _ => rfl) seen

/-- A name is declared twice in one list and once more in the body, and the environment binds the
new name. -/
theorem rename_parameter_twice :
    ∃ (arena arena' : Arena) (id id' : NodeId) (env : Environment Value),
      arena.tree? id = some (.apply (.lambda [⟨0⟩, ⟨0⟩] (.apply (.lambda [⟨0⟩] (.identifier ⟨0⟩))
        [.identifier ⟨0⟩])) [.string "a", .string "b"]) ∧
      arena'.tree? id' = some (.apply (.lambda [⟨1⟩, ⟨1⟩] (.apply (.lambda [⟨0⟩] (.identifier ⟨0⟩))
        [.identifier ⟨1⟩])) [.string "a", .string "b"]) ∧
      env.lookup ⟨1⟩ = some (.bool true) ∧
      (∀ seen, Eventually (fun limit => (eval limit .empty arena id env 0).1) seen ↔
        Eventually (fun limit => (eval limit .empty arena' id' env 0).1) seen) ∧
      Eventually (fun limit => (eval limit .empty arena' id' env 0).1) (.string "b") := by
  refine ⟨⟨#[.identifier ⟨0⟩, .lambda ⟨0, 1⟩ ⟨0⟩, .apply ⟨1⟩ ⟨0, 1⟩, .lambda ⟨0, 2⟩ ⟨2⟩,
      .string "a", .string "b", .apply ⟨3⟩ ⟨1, 2⟩], #[⟨0⟩, ⟨4⟩, ⟨5⟩], #[⟨0⟩, ⟨0⟩]⟩,
    ⟨#[.identifier ⟨0⟩, .lambda ⟨0, 1⟩ ⟨0⟩, .identifier ⟨1⟩, .apply ⟨1⟩ ⟨0, 1⟩, .lambda ⟨1, 2⟩ ⟨3⟩,
      .string "a", .string "b", .apply ⟨4⟩ ⟨1, 2⟩], #[⟨2⟩, ⟨5⟩, ⟨6⟩], #[⟨0⟩, ⟨1⟩, ⟨1⟩]⟩, ⟨6⟩, ⟨7⟩,
    .bind .empty ⟨1⟩ (.bool true), rfl, rfl, rfl, ?_⟩
  exact ⟨rename_parameter (C := .callee .hole [.string "a", .string "b"]) (x := ⟨0⟩)
    List.mem_cons_self (by decide) rfl rfl .empty _ 0, nofun, 20, rfl⟩

end Machine

end ArrowLisp
