import ArrowLisp.Proofs.Machine.Coincidence
import ArrowLisp.Proofs.Machine.Contents
import ArrowLisp.Proofs.Program.Canonical
import ArrowLisp.Proofs.TopEnvironment

/-!
Which primitives a program can use. All of them are in the outermost environment, which every
closure captures, but a program gets at those only that its free names stand for. For its run keeps
step with a run in the environment that has the bindings of its free names and no others, and
primitives do not come into a run on the way.
-/

namespace ArrowLisp

/-- The name of the primitive that an error is about, for the errors that only primitives raise. -/
def EvalError.operation? : EvalError → Option String
  | .userError _ => some Primitive.error.name
  | .divisionByZero => some Primitive.divide.name
  | .noMatchingPrimitive name _ => some name
  | .typeMismatch (.operandsNotNumbers name _ _) => some name
  | .unboundIdentifier _ | .arityMismatch _ _ | .typeMismatch _ => none

/-- A primitive raises errors in its own name. -/
theorem Primitive.operation?_of_apply {op : Primitive} {args : List Value} {e : EvalError}
    (h : op.apply args = .error e) : e.operation? = some op.name := by
  unfold apply at h
  split at h
  · cases h; rfl
  · cases h
  · split at h
    · split at h
      · cases op <;> grind [onNumbers, EvalError.operation?]
      · cases h; rfl
    · cases h; rfl
  · cases h; rfl

namespace Machine

variable {names : Interner} {op : Primitive}

/-- A primitive is being applied or handed over. -/
inductive Control.Handles (op : Primitive) : Control → Prop where
  | applies (args : List Value) : Handles op (.call (.primitive op) args)
  | returns : Handles op (.ret (.primitive op))

theorem Control.Handles.holds {c : Configuration} (h : c.control.Handles op) :
    c.Holds (.primitive op) := by
  obtain ⟨control, waiting, n⟩ := c
  refine ⟨.primitive op, List.mem_append_left _ ?_, .refl _⟩
  cases h with
  | applies => exact List.mem_cons_self
  | returns => exact List.mem_singleton_self _

theorem Control.Handles.of_controls {control control' : Control}
    {P : Scope → NodeId → Scope → NodeId → Prop} (h : control.Handles op)
    (hControls : (Coupling.alike .same).Controls P control control') : control'.Handles op := by
  cases h with
  | applies =>
      cases hControls with
      | call hCallee => cases hCallee; exact .applies _
  | returns =>
      cases hControls with
      | ret hValue => cases hValue; exact .returns

/-- A primitive that is applied in a run or handed over is part of what a free name is bound to. -/
theorem exists_free_of_handles {arena : Arena} {id : NodeId} {e : Expr Name}
    (hTree : arena.tree? id = some e) {env : Environment Value} {next : Nat} {c : Configuration}
    (hReaches : Reaches names ⟨.eval ⟨arena, env⟩ id, [], next⟩ c) (h : c.control.Handles op) :
    ∃ x v, e.Free x ∧ env.lookup x = some v ∧ v.Contains (.primitive op) := by
  classical
  let free := e.names.filter (e.Free ·)
  have hFree : ∀ x, x ∈ free ↔ e.Free x := fun x => by
    simpa [free] using Expr.Free.mem_names
  have hEnv : env.AlikeOn .same (arena.Free · id) (env.only free) := by
    rintro x _ rfl hx
    rw [Environment.lookup_only ((hFree x).2 ((Arena.free_iff_of_tree? hTree).1 hx))]
    exact optionRel_self Value.alike_same _
  -- The other run has nothing at hand but what the free names are bound to.
  have hStart : (Coupling.alike .same).Moments (Coupling.alike .same).place
      ⟨.eval ⟨arena, env⟩ id, [], next⟩ ⟨.eval ⟨arena, env.only free⟩ id, [], next⟩ :=
    ⟨.eval ⟨⟨rfl, rfl⟩, hEnv⟩, .nil, fun _ => rfl⟩
  have hKeeps := Coupling.keepsStep_alike Likeness.stable_same
    fun x y hName => congrArg names.lookup hName
  obtain ⟨d, hReaches', hMoment⟩ :=
    (Coupling.sound_alike Likeness.stable_same).exists_reaches hKeeps hStart hReaches
  obtain ⟨v, hv, hContains⟩ :=
    holds_primitive_of_reaches hReaches' (h.of_controls hMoment.control).holds
  rw [values_start] at hv
  obtain ⟨x, hx, hLookup⟩ := Environment.exists_lookup_of_mem_values_only hv
  exact ⟨x, v, (hFree x).1 hx, hLookup, hContains⟩

/-- An error that is about a primitive is raised where this primitive is applied. -/
theorem exists_call_of_operation? {c : Configuration} {e : EvalError} {t : String}
    (hDone : advance names c = .done (.error e)) (h : e.operation? = some t) :
    ∃ op : Primitive, op.name = t ∧ c.control.Handles op := by
  obtain ⟨control, waiting, n⟩ := c
  cases control with
  | eval scope id =>
      simp only [advance] at hDone
      split at hDone
      · next node _ => cases node <;> grind [evalNode, EvalError.operation?]
      · cases hDone
  | call callee args =>
      cases callee with
      | number | bool | string => cases hDone; cases h
      | primitive op =>
          simp only [advance, applyValue] at hDone
          split at hDone
          · cases hDone
          · next hApply =>
              cases hDone
              exact ⟨op, Option.some.inj ((Primitive.operation?_of_apply hApply).symm.trans h),
                .applies args⟩
      | closure cl =>
          simp only [advance, applyValue, Environment.extend] at hDone
          split_ifs at hDone
          cases hDone
          cases h
  | ret v =>
      cases waiting with
      | nil => cases hDone
      | cons awaiting waiting =>
          cases awaiting with
          | condition scope t e =>
              cases v with
              | bool b => cases b <;> cases hDone
              | _ => cases hDone; cases h
          | callee scope span => grind [advance, resume, EvalError.operation?]
          | arg => cases hDone

end Machine

namespace Program

variable {s : Sexp} {i i' j k : Interner} {p : Program}

/-- A primitive that is applied or handed over in the run of a program is free in the program by its
own name. -/
theorem free_of_handles {e : Expr String} (hProgram : ofSexp s i = (.ok p, i'))
    (hExpr : p.expr? i' = some e) (hNames : i'.Extends j) (hTop : k.topEnvironment.2.Extends j)
    {names : Interner} {next : Nat} {c : Machine.Configuration} {op : Primitive}
    (hReaches : Machine.Reaches names
      ⟨.eval ⟨p.arena, k.topEnvironment.1⟩ p.root, [], next⟩ c)
    (h : c.control.Handles op) : e.Free op.name := by
  obtain ⟨tree, hTree, -, hIssued⟩ := exists_tree?_of_ofSexp hProgram
  rw [expr?, hTree] at hExpr
  obtain rfl : tree.map i'.lookup = e := Option.some.inj hExpr
  obtain ⟨x, v, hFree, hLookup, hContains⟩ := Machine.exists_free_of_handles hTree hReaches h
  obtain ⟨op', hName, rfl⟩ := (Interner.lookup_topEnvironment_eq_some_iff hTop).1 hLookup
  cases hContains
  have hx := hIssued x hFree.mem_names
  have hText : i'.lookup x = op.name := by
    rw [← hNames.lookup_eq hx, Interner.lookup_of_find? hName]
  exact hText ▸ hFree.map fun y hy => (hIssued y hy).lookup_injective hx

/-- A program uses only primitives that it names. Whatever primitive is applied at any point of its
run in the outermost environment, or comes out of it, is free in the program by its own name. So
`error` is free if the run ends with an error of the program's own, `/` is free if it ends with a
division by zero, and the other errors of primitives name one that is free. The outermost
environment may have been made before or after the program was read. -/
theorem uses_only_named_primitives (hProgram : ofSexp s i = (.ok p, i')) (hNames : i'.Extends j)
    (hTop : k.topEnvironment.2.Extends j) :
    ∃ e, p.expr? i' = some e ∧ ∀ (names : Interner) (next : Nat),
      (∀ op args waiting n,
        Machine.Reaches names ⟨.eval ⟨p.arena, k.topEnvironment.1⟩ p.root, [], next⟩
          ⟨.call (.primitive op) args, waiting, n⟩ → e.Free op.name) ∧
      ∀ limit outcome,
        (Machine.eval limit names p.arena p.root k.topEnvironment.1 next).1 = outcome →
          (∀ op, outcome = .value (.primitive op) → e.Free op.name) ∧
          (∀ message, outcome = .error (.userError message) → e.Free "error") ∧
          (outcome = .error .divisionByZero → e.Free "/") ∧
          (∀ name count, outcome = .error (.noMatchingPrimitive name count) →
            e.Free name ∧ ∃ op : Primitive, op.name = name) ∧
          ∀ name left right,
            outcome = .error (.typeMismatch (.operandsNotNumbers name left right)) →
              e.Free name ∧ ∃ op : Primitive, op.name = name := by
  obtain ⟨tree, hTree, -, -⟩ := exists_tree?_of_ofSexp hProgram
  have hExpr : p.expr? i' = some (tree.map i'.lookup) := by rw [expr?, hTree]; rfl
  refine ⟨_, hExpr, fun names next => ⟨fun op args waiting n hReaches => ?_, ?_⟩⟩
  · exact free_of_handles hProgram hExpr hNames hTop hReaches (.applies args)
  · rintro limit _ rfl
    have hNamed : ∀ error name,
        (Machine.eval limit names p.arena p.root k.topEnvironment.1 next).1 = .error error →
          error.operation? = some name →
            (tree.map i'.lookup).Free name ∧ ∃ op : Primitive, op.name = name := by
      intro error name hRun hOperation
      obtain ⟨c, hReaches, hDone, -⟩ :=
        Machine.exists_reaches_of_run (Prod.ext hRun rfl) (by simp)
      obtain ⟨op, rfl, hHandles⟩ := Machine.exists_call_of_operation? hDone hOperation
      exact ⟨free_of_handles hProgram hExpr hNames hTop hReaches hHandles, op, rfl⟩
    refine ⟨fun op hRun => ?_, fun _ hRun => (hNamed _ _ hRun rfl).1,
      fun hRun => (hNamed _ _ hRun rfl).1, fun _ _ hRun => hNamed _ _ hRun rfl,
      fun _ _ _ hRun => hNamed _ _ hRun rfl⟩
    obtain ⟨c, hReaches, hDone, -⟩ := Machine.exists_reaches_of_run (Prod.ext hRun rfl) (by simp)
    obtain ⟨n, rfl⟩ := Machine.eq_ret_of_done hDone
    exact free_of_handles hProgram hExpr hNames hTop hReaches .returns

/-- Division that is handed to a lambda and fails there under the name of the parameter. -/
theorem uses_only_named_primitives_as_argument :
    ∃ p i' e, ofSexp (.list [.list [.symbol "f", .symbol "=>",
        .list [.symbol "f", .number 1, .number 0]], .symbol "/"]) .empty = (.ok p, i') ∧
      p.expr? i' = some e ∧
      (Machine.eval 20 i' p.arena p.root i'.topEnvironment.1 0).1 = .error .divisionByZero ∧
      e.Free "/" := by
  have hProgram : (ofSexp (.list [.list [.symbol "f", .symbol "=>",
      .list [.symbol "f", .number 1, .number 0]], .symbol "/"]) .empty).1 =
      .ok ⟨⟨#[.identifier ⟨0⟩, .number 1, .number 0, .apply ⟨0⟩ ⟨0, 2⟩, .lambda ⟨0, 1⟩ ⟨3⟩,
        .identifier ⟨1⟩, .apply ⟨4⟩ ⟨2, 1⟩], #[⟨1⟩, ⟨2⟩, ⟨5⟩], #[⟨0⟩]⟩, ⟨6⟩⟩ := by cbv
  obtain ⟨e, hExpr, hUses⟩ := uses_only_named_primitives (Prod.ext hProgram rfl)
    (Interner.extends_topEnvironment _) (.refl _)
  refine ⟨_, _, e, Prod.ext hProgram rfl, hExpr, ?_⟩
  refine (and_iff_left_of_imp fun hRun => ((hUses _ 0).2 20 _ hRun).2.2.1 rfl).2 ?_
  exact Outcome.observe_eq_error_iff.1 (by decide +kernel)

end Program

end ArrowLisp
