import ArrowLisp.Proofs.Machine.Jobs
import ArrowLisp.Proofs.Natural.Meaning

/-!
The machine does what the rules say. What can be derived for the meaning of a job is what the job
yields, and a run that ends has a derivation of what it did first.
-/

namespace ArrowLisp.Machine

variable {names : Interner}

/-- A job of the machine means one of the rules. -/
inductive Job.Means : Job → Natural.Job Name → Prop where
  | eval {scope : Scope} {id : NodeId} {ρ : Natural.Scope Name} {e : Expr Name}
      (hEnv : scope.env.Means ρ) (hTree : scope.arena.tree? id = some e) :
      Means (.eval scope id) (.eval ρ e)
  | evalArgs {scope : Scope} {callee : Value} {evaluated : List Value} {ids : List NodeId}
      {ρ : Natural.Scope Name} {d : Datum Name} {ds : List (Datum Name)} {es : List (Expr Name)}
      (hEnv : scope.env.Means ρ) (hCallee : callee.Means d)
      (hDone : List.Forall₂ Value.Means evaluated.reverse ds)
      (hTrees : List.Forall₂ (fun id e => scope.arena.tree? id = some e) ids es) :
      Means (.evalArgs scope callee evaluated ids) (.evalArgs ρ d ds es)
  | call {callee : Value} {vs : List Value} {d : Datum Name} {ds : List (Datum Name)}
      (hCallee : callee.Means d) (hArgs : List.Forall₂ Value.Means vs ds) :
      Means (.call callee vs) (.call d ds)

theorem forall₂_reverse_cons {vs : List Value} {ds : List (Datum Name)} {v : Value}
    {d : Datum Name} (h : List.Forall₂ Value.Means vs.reverse ds) (hv : v.Means d) :
    List.Forall₂ Value.Means (v :: vs).reverse (ds ++ [d]) := by
  rw [List.reverse_cons]
  exact List.rel_append h (.cons hv .nil)

namespace Job.Means

variable {job : Job} {ρ : Natural.Scope Name} {d : Datum Name} {ds : List (Datum Name)}

/-- What means an identifier evaluates a node with that name. -/
theorem exists_identifier {x : Name} (h : job.Means (.eval ρ (.identifier x))) :
    ∃ scope id, job = .eval scope id ∧ scope.arena.node? id = some (.identifier x) ∧
      scope.env.Means ρ := by
  obtain ⟨hEnv, hTree⟩ := h
  obtain ⟨node, hNode, hAssembles⟩ := Arena.exists_assembles_of_tree? hTree
  cases hAssembles
  exact ⟨_, _, rfl, hNode, hEnv⟩

/-- What means a conditional evaluates a node of three parts, each of which means its part. -/
theorem exists_conditional {c t e : Expr Name} (h : job.Means (.eval ρ (.conditional c t e))) :
    ∃ scope id condition consequent alternative, job = .eval scope id ∧
      scope.arena.node? id = some (.conditional condition consequent alternative) ∧
      Means (.eval scope condition) (.eval ρ c) ∧ Means (.eval scope consequent) (.eval ρ t) ∧
      Means (.eval scope alternative) (.eval ρ e) := by
  obtain ⟨hEnv, hTree⟩ := h
  obtain ⟨_, _, _, hNode, hC, hT, hE⟩ := Arena.exists_conditional_of_tree? hTree
  exact ⟨_, _, _, _, _, rfl, hNode, .eval hEnv hC, .eval hEnv hT, .eval hEnv hE⟩

/-- What means an application evaluates a node with a callee, and with arguments that are evaluated
once the callee has a value. -/
theorem exists_apply {callee : Expr Name} {args : List (Expr Name)}
    (h : job.Means (.eval ρ (.apply callee args))) :
    ∃ scope id f span ids, job = .eval scope id ∧ scope.arena.node? id = some (.apply f span) ∧
      scope.arena.args? span = some ids ∧ Means (.eval scope f) (.eval ρ callee) ∧
      ∀ {v : Value} {d : Datum Name}, v.Means d →
        Means (.evalArgs scope v [] ids) (.evalArgs ρ d [] args) := by
  obtain ⟨hEnv, hTree⟩ := h
  obtain ⟨_, _, _, hNode, hCallee, hIds, hArgs⟩ := Arena.exists_apply_of_tree? hTree
  exact ⟨_, _, _, _, _, rfl, hNode, hIds, .eval hEnv hCallee,
    fun hv => .evalArgs hEnv hv .nil hArgs⟩

/-- What means arguments of which some are left has a node for the first of them, and goes on with
the others once this one has a value. -/
theorem exists_evalArgs {e : Expr Name} {es : List (Expr Name)}
    (h : job.Means (.evalArgs ρ d ds (e :: es))) :
    ∃ scope callee evaluated id ids, job = .evalArgs scope callee evaluated (id :: ids) ∧
      Means (.eval scope id) (.eval ρ e) ∧
      ∀ {v : Value} {a : Datum Name}, v.Means a →
        Means (.evalArgs scope callee (v :: evaluated) ids) (.evalArgs ρ d (ds ++ [a]) es) := by
  cases h with
  | evalArgs hEnv hCallee hDone hTrees =>
      obtain ⟨id, ids, hTree, hRest, rfl⟩ := List.forall₂_cons_right_iff.1 hTrees
      exact ⟨_, _, _, _, _, rfl, .eval hEnv hTree,
        fun hv => .evalArgs hEnv hCallee (forall₂_reverse_cons hDone hv) hRest⟩

theorem exists_call (h : job.Means (.call d ds)) :
    ∃ callee vs, job = .call callee vs ∧ callee.Means d ∧ List.Forall₂ Value.Means vs ds := by
  cases h with
  | call hCallee hArgs => exact ⟨_, _, rfl, hCallee, hArgs⟩

end Job.Means

/-- What the rules derive for the meaning of a job is what the job yields. -/
theorem exists_yields_of_derives {task : Natural.Job Name} {n m : Nat}
    {r : Except EvalError (Datum Name)} (h : Natural.Derives names.lookup task n r m) :
    ∀ job : Job, job.Means task → ∃ r', ResultMeans r' r ∧ job.Yields names n r' m := by
  induction h with
  | number | string | bool =>
      rintro _ ⟨hEnv, hTree⟩
      obtain ⟨node, hNode, hAssembles⟩ := Arena.exists_assembles_of_tree? hTree
      cases hAssembles
      exact ⟨_, .ok (by constructor), .of_ret hNode fun _ => rfl⟩
  | identifier hMeans =>
      intro job hJob
      obtain ⟨scope, id, rfl, hNode, hEnv⟩ := hJob.exists_identifier
      obtain ⟨v, hLookup, hv⟩ := hEnv.exists_value hMeans
      exact ⟨_, .ok hv, .of_ret hNode fun _ => by rw [evalNode, hLookup]⟩
  | unbound hMeans =>
      intro job hJob
      obtain ⟨scope, id, rfl, hNode, hEnv⟩ := hJob.exists_identifier
      exact ⟨_, .error _, .unbound hNode (hEnv.eq_none_iff.2 hMeans)⟩
  | consequent _ _ ihCondition ihBranch =>
      intro job hJob
      obtain ⟨scope, id, c, t, e, rfl, hNode, hC, hT, hE⟩ := hJob.exists_conditional
      obtain ⟨_, ⟨⟨⟩⟩, hCondition⟩ := ihCondition _ hC
      obtain ⟨r, hr, hBranch⟩ := ihBranch _ hT
      exact ⟨r, hr, .consequent hNode hCondition hBranch⟩
  | alternative _ _ ihCondition ihBranch =>
      intro job hJob
      obtain ⟨scope, id, c, t, e, rfl, hNode, hC, hT, hE⟩ := hJob.exists_conditional
      obtain ⟨_, ⟨⟨⟩⟩, hCondition⟩ := ihCondition _ hC
      obtain ⟨r, hr, hBranch⟩ := ihBranch _ hE
      exact ⟨r, hr, .alternative hNode hCondition hBranch⟩
  | conditionFails _ ihCondition =>
      intro job hJob
      obtain ⟨scope, id, c, t, e, rfl, hNode, hC, hT, hE⟩ := hJob.exists_conditional
      obtain ⟨_, ⟨⟩, hCondition⟩ := ihCondition _ hC
      exact ⟨_, .error _, .condition_fails hNode hCondition⟩
  | conditionNotBool _ hKind ihCondition =>
      intro job hJob
      obtain ⟨scope, id, c, t, e, rfl, hNode, hC, hT, hE⟩ := hJob.exists_conditional
      obtain ⟨_, ⟨hv⟩, hCondition⟩ := ihCondition _ hC
      refine ⟨_, ?_, .condition_notBool hNode hCondition ?_⟩
      · rw [hv.kind_eq]
        exact .error _
      · rintro b rfl
        cases hv
        exact hKind b rfl
  | lambda =>
      rintro _ ⟨hEnv, hTree⟩
      obtain ⟨span, b, hNode, hParams, hBody⟩ := Arena.exists_lambda_of_tree? hTree
      exact ⟨_, .ok (.of_env (c := ⟨_, _, _, _, _⟩) hBody hEnv),
        .of_ret hNode fun _ => by rw [evalNode, hParams]⟩
  | apply _ hCallable _ ihCallee ihArgs =>
      intro job hJob
      obtain ⟨scope, id, f, span, ids, rfl, hNode, hIds, hCallee, hArgs⟩ := hJob.exists_apply
      obtain ⟨_, ⟨hv⟩, hCalleeYields⟩ := ihCallee _ hCallee
      obtain ⟨r, hr, hArgsYield⟩ := ihArgs _ (hArgs hv)
      exact ⟨r, hr, .apply hNode hIds hCalleeYields (hv.isCallable_eq.trans hCallable) hArgsYield⟩
  | calleeFails _ ihCallee =>
      intro job hJob
      obtain ⟨scope, id, f, span, ids, rfl, hNode, hIds, hCallee, -⟩ := hJob.exists_apply
      obtain ⟨_, ⟨⟩, hCalleeYields⟩ := ihCallee _ hCallee
      exact ⟨_, .error _, .callee_fails hNode hCalleeYields⟩
  | notCallable _ hCallable ihCallee =>
      intro job hJob
      obtain ⟨scope, id, f, span, ids, rfl, hNode, hIds, hCallee, -⟩ := hJob.exists_apply
      obtain ⟨_, ⟨hv⟩, hCalleeYields⟩ := ihCallee _ hCallee
      refine ⟨_, ?_, .callee_notCallable hNode hCalleeYields (hv.isCallable_eq.trans hCallable)⟩
      rw [hv.kind_eq]
      exact .error _
  | argsDone _ ih =>
      intro job hJob
      cases hJob with
      | evalArgs hEnv hCallee hDone hTrees =>
          obtain rfl := List.forall₂_nil_right_iff.1 hTrees
          obtain ⟨r, hr, hCall⟩ := ih _ (.call hCallee hDone)
          exact ⟨r, hr, .args_done hCall⟩
  | argsNext _ _ ihArg ihRest =>
      intro job hJob
      obtain ⟨scope, callee, evaluated, id, ids, rfl, hFirst, hRest⟩ := hJob.exists_evalArgs
      obtain ⟨_, ⟨hv⟩, hArg⟩ := ihArg _ hFirst
      obtain ⟨r, hr, hRestYields⟩ := ihRest _ (hRest hv)
      exact ⟨r, hr, .args_next hArg hRestYields⟩
  | argFails _ ihArg =>
      intro job hJob
      obtain ⟨scope, callee, evaluated, id, ids, rfl, hFirst, -⟩ := hJob.exists_evalArgs
      obtain ⟨_, ⟨⟩, hArg⟩ := ihArg _ hFirst
      exact ⟨_, .error _, .arg_fails hArg⟩
  | primitive hAnswers =>
      intro job hJob
      obtain ⟨callee, vs, rfl, hCallee, hArgs⟩ := hJob.exists_call
      cases hCallee with
      | primitive =>
          obtain ⟨r, hAnswers', hr⟩ := Primitive.exists_answers _ hArgs
          rw [hAnswers.unique hAnswers']
          exact ⟨_, hr, .primitive rfl⟩
  | procedure hArity _ ihBody =>
      intro job hJob
      obtain ⟨callee, vs, rfl, hCallee, hArgs⟩ := hJob.exists_call
      obtain ⟨c, rfl, rfl, rfl, hBody, hEnv⟩ := hCallee.exists_closure
      obtain ⟨r, hr, hYields⟩ :=
        ihBody (.eval ⟨c.arena, _⟩ c.body) (.eval (hEnv.withFrame hArgs c.params) hBody)
      refine ⟨r, hr, .closure (Environment.extend_eq_ok_iff.2 ⟨?_, rfl⟩) hYields⟩
      rw [hArity, hArgs.length_eq]
  | wrongArity hArity =>
      intro job hJob
      obtain ⟨callee, vs, rfl, hCallee, hArgs⟩ := hJob.exists_call
      obtain ⟨c, rfl, rfl, rfl, hBody, hEnv⟩ := hCallee.exists_closure
      refine ⟨_, .error _, .wrongArity ?_⟩
      rw [← hArgs.length_eq] at hArity ⊢
      rw [Environment.extend, if_neg hArity]
  | callNotCallable hCallable =>
      intro job hJob
      obtain ⟨callee, vs, rfl, hCallee, hArgs⟩ := hJob.exists_call
      refine ⟨_, ?_, .call_notCallable (hCallee.isCallable_eq.trans hCallable)⟩
      rw [hCallee.kind_eq]
      exact .error _

/-- How a run that ended with `o` had gone on when a job had come to its result: it ended with the
same error, or a value with the same meaning was handed to `waiting` with fewer steps left. -/
inductive Continues (names : Interner) (limit : Nat) (waiting : List Awaiting)
    (o : Outcome EvalError) (next : Nat) : Except EvalError (Datum Name) → Nat → Prop where
  | ok {v : Value} {d : Datum Name} {limit' m : Nat} (hLess : limit' < limit) (hMeans : v.Means d)
      (hRun : run names limit' ⟨.ret v, waiting, m⟩ = (o, next)) :
      Continues names limit waiting o next (.ok d) m
  | error {e : EvalError} (hError : o = .error e) :
      Continues names limit waiting o next (.error e) next

theorem Continues.mono {limit limit' : Nat} {waiting : List Awaiting} {o : Outcome EvalError}
    {next m : Nat} {r : Except EvalError (Datum Name)} (hLe : limit ≤ limit')
    (h : Continues names limit waiting o next r m) :
    Continues names limit' waiting o next r m := by
  cases h with
  | ok hLess hMeans hRun => exact .ok (Nat.lt_of_lt_of_le hLess hLe) hMeans hRun
  | error hError => exact .error hError

/-- Runs of so many steps that end have derivations of what they did first. -/
def Sound (names : Interner) (limit : Nat) : Prop :=
  ∀ {job : Job} {task : Natural.Job Name} {waiting : List Awaiting} {n next : Nat}
    {o : Outcome EvalError}, job.Means task → o ≠ .unfinished →
    run names limit (job.start waiting n) = (o, next) →
    ∃ r m, Natural.Derives names.lookup task n r m ∧ Continues names limit waiting o next r m

section Soundness

variable {limit n next : Nat} {o : Outcome EvalError} {waiting : List Awaiting}
  (ih : ∀ limit' < limit, Sound names limit') (hEnds : o ≠ .unfinished)

include ih hEnds

theorem sound_call {callee : Value} {vs : List Value} {d : Datum Name} {ds : List (Datum Name)}
    (hCallee : callee.Means d) (hArgs : List.Forall₂ Value.Means vs ds)
    (hRun : run names limit ⟨.call callee vs, waiting, n⟩ = (o, next)) :
    ∃ r m, Natural.Derives names.lookup (.call d ds) n r m ∧
      Continues names limit waiting o next r m := by
  have hMeans := hCallee
  cases hCallee with
  | number | bool | string =>
      obtain ⟨rfl, rfl⟩ := eq_of_run_of_done hRun hEnds (advance_call_notCallable rfl vs _ _)
      exact ⟨_, _, .callNotCallable rfl, .error rfl⟩
  | primitive op =>
      obtain ⟨r, hAnswers, hr⟩ := Primitive.exists_answers op hArgs
      generalize hApply : op.apply vs = result at hr
      cases hr with
      | ok hv =>
          obtain ⟨limit', hLess, hRest⟩ :=
            exists_run_of_next hRun hEnds (advance_call_primitive hApply _ _)
          exact ⟨_, _, .primitive hAnswers, .ok hLess hv hRest⟩
      | error e =>
          obtain ⟨rfl, rfl⟩ :=
            eq_of_run_of_done hRun hEnds (advance_call_primitive_error hApply _ _)
          exact ⟨_, _, .primitive hAnswers, .error rfl⟩
  | @closure c body ρ _ _ _ =>
      obtain ⟨_, ⟨⟩, -, -, hBody, hEnv⟩ := hMeans.exists_closure
      by_cases hArity : c.params.length = vs.length
      · obtain ⟨limit', hLess, hRest⟩ := exists_run_of_next hRun hEnds
          (advance_call_closure (Environment.extend_eq_ok_iff.2 ⟨hArity, rfl⟩) _ _)
        obtain ⟨r, m, hDerives, hContinues⟩ :=
          ih limit' hLess (.eval (hEnv.withFrame hArgs c.params) hBody) hEnds hRest
        exact ⟨r, m, .procedure (hArity.trans hArgs.length_eq) hDerives,
          hContinues.mono (Nat.le_of_lt hLess)⟩
      · have hExtend : c.env.extend c.params vs =
            .error (.arityMismatch c.params.length vs.length) := if_neg hArity
        obtain ⟨rfl, rfl⟩ := eq_of_run_of_done hRun hEnds (advance_call_closure_error hExtend _ _)
        rw [hArgs.length_eq] at hArity ⊢
        exact ⟨_, _, .wrongArity hArity, .error rfl⟩

theorem sound_conditional {scope : Scope} {ρ : Natural.Scope Name} (hEnv : scope.env.Means ρ)
    {id : NodeId} {condition consequent alternative : Expr Name}
    (hTree : scope.arena.tree? id = some (.conditional condition consequent alternative))
    (hRun : run names limit ⟨.eval scope id, waiting, n⟩ = (o, next)) :
    ∃ r m, Natural.Derives names.lookup
      (.eval ρ (.conditional condition consequent alternative)) n r m ∧
      Continues names limit waiting o next r m := by
  obtain ⟨c, t, e, hNode, hC, hT, hE⟩ := Arena.exists_conditional_of_tree? hTree
  obtain ⟨first, hFirst, hRun⟩ := exists_run_of_next hRun hEnds (advance_eval hNode rfl)
  obtain ⟨r, m, hCondition, hContinues⟩ := ih first hFirst (.eval hEnv hC) hEnds hRun
  cases hContinues with
  | error hError => exact ⟨_, _, .conditionFails hCondition, .error hError⟩
  | @ok v d second _ hSecond hMeans hRun =>
      by_cases hBool : ∃ b, v = .bool b
      · obtain ⟨b, rfl⟩ := hBool
        cases hMeans
        cases b with
        | true =>
            obtain ⟨third, hThird, hRun⟩ := exists_run_of_next hRun hEnds rfl
            obtain ⟨r, k, hBranch, hContinues⟩ :=
              ih third (by omega) (.eval hEnv hT) hEnds hRun
            exact ⟨r, k, .consequent hCondition hBranch, hContinues.mono (by omega)⟩
        | false =>
            obtain ⟨third, hThird, hRun⟩ := exists_run_of_next hRun hEnds rfl
            obtain ⟨r, k, hBranch, hContinues⟩ :=
              ih third (by omega) (.eval hEnv hE) hEnds hRun
            exact ⟨r, k, .alternative hCondition hBranch, hContinues.mono (by omega)⟩
      · have hKind : ∀ b, v ≠ .bool b := fun b hb => hBool ⟨b, hb⟩
        obtain ⟨rfl, rfl⟩ :=
          eq_of_run_of_done hRun hEnds (resume_condition_notBool hKind _ _ _ _ _)
        rw [hMeans.kind_eq]
        refine ⟨_, _, .conditionNotBool hCondition ?_, .error rfl⟩
        rintro b rfl
        cases hMeans
        exact hKind b rfl

theorem sound_apply {scope : Scope} {ρ : Natural.Scope Name} (hEnv : scope.env.Means ρ)
    {id : NodeId} {callee : Expr Name} {args : List (Expr Name)}
    (hTree : scope.arena.tree? id = some (.apply callee args))
    (hRun : run names limit ⟨.eval scope id, waiting, n⟩ = (o, next)) :
    ∃ r m, Natural.Derives names.lookup (.eval ρ (.apply callee args)) n r m ∧
      Continues names limit waiting o next r m := by
  obtain ⟨f, span, ids, hNode, hCallee, hIds, hArgs⟩ := Arena.exists_apply_of_tree? hTree
  obtain ⟨first, hFirst, hRun⟩ := exists_run_of_next hRun hEnds (advance_eval hNode rfl)
  obtain ⟨r, m, hCalleeDerives, hContinues⟩ := ih first hFirst (.eval hEnv hCallee) hEnds hRun
  cases hContinues with
  | error hError => exact ⟨_, _, .calleeFails hCalleeDerives, .error hError⟩
  | @ok v d second _ hSecond hMeans hRun =>
      cases hCallable : v.isCallable with
      | false =>
          obtain ⟨rfl, rfl⟩ :=
            eq_of_run_of_done hRun hEnds (resume_callee_notCallable hCallable _ _ _ _)
          rw [hMeans.kind_eq]
          refine ⟨_, _, .notCallable hCalleeDerives ?_, .error rfl⟩
          rw [← hMeans.isCallable_eq, hCallable]
      | true =>
          have hNone : List.Forall₂ Value.Means [].reverse [] := .nil
          obtain ⟨third, hThird, hRun⟩ :=
            exists_run_of_next hRun hEnds (resume_callee hCallable hIds _ _)
          obtain ⟨r, k, hArgsDerive, hContinues⟩ :=
            ih third (by omega) (.evalArgs hEnv hMeans hNone hArgs) hEnds hRun
          refine ⟨r, k, .apply hCalleeDerives ?_ hArgsDerive, hContinues.mono (by omega)⟩
          rw [← hMeans.isCallable_eq, hCallable]

omit ih in
/-- A node that has its value at once takes one step. -/
theorem sound_node {scope : Scope} {id : NodeId} {node : Node} {v : Value} {task : Natural.Job Name}
    {d : Datum Name} {m : Nat} (hNode : scope.arena.node? id = some node)
    (hStep : evalNode names scope waiting n node = .next ⟨.ret v, waiting, m⟩) (hMeans : v.Means d)
    (hDerives : Natural.Derives names.lookup task n (.ok d) m)
    (hRun : run names limit ⟨.eval scope id, waiting, n⟩ = (o, next)) :
    ∃ r m, Natural.Derives names.lookup task n r m ∧ Continues names limit waiting o next r m := by
  obtain ⟨limit', hLess, hRest⟩ := exists_run_of_next hRun hEnds (advance_eval hNode hStep)
  exact ⟨_, _, hDerives, .ok hLess hMeans hRest⟩

theorem sound_eval {scope : Scope} {ρ : Natural.Scope Name} (hEnv : scope.env.Means ρ)
    {id : NodeId} {e : Expr Name} (hTree : scope.arena.tree? id = some e)
    (hRun : run names limit ⟨.eval scope id, waiting, n⟩ = (o, next)) :
    ∃ r m, Natural.Derives names.lookup (.eval ρ e) n r m ∧
      Continues names limit waiting o next r m := by
  cases e with
  | conditional => exact sound_conditional ih hEnds hEnv hTree hRun
  | apply => exact sound_apply ih hEnds hEnv hTree hRun
  | lambda params body =>
      obtain ⟨span, b, hNode, hParams, hBody⟩ := Arena.exists_lambda_of_tree? hTree
      have hStep : evalNode names scope waiting n (.lambda span b) =
          .next ⟨.ret (.closure ⟨n, params, b, scope.env, scope.arena⟩), waiting, n + 1⟩ := by
        rw [evalNode, hParams]
      exact sound_node hEnds hNode hStep (.of_env (c := ⟨n, _, _, _, _⟩) hBody hEnv) .lambda hRun
  | identifier x =>
      obtain ⟨node, hNode, hAssembles⟩ := Arena.exists_assembles_of_tree? hTree
      cases hAssembles
      cases hLookup : scope.env.lookup x with
      | none =>
          obtain ⟨rfl, rfl⟩ := eq_of_run_of_done hRun hEnds
            (advance_eval hNode (by rw [evalNode, hLookup]))
          exact ⟨_, _, .unbound (hEnv.eq_none_iff.1 hLookup), .error rfl⟩
      | some v =>
          obtain ⟨d, hd, hMeans⟩ := hEnv.exists_datum hLookup
          exact sound_node hEnds hNode (by rw [evalNode, hLookup]) hMeans (.identifier hd) hRun
  | number x =>
      obtain ⟨node, hNode, hAssembles⟩ := Arena.exists_assembles_of_tree? hTree
      cases hAssembles
      exact sound_node hEnds hNode rfl (.number x) .number hRun
  | string s =>
      obtain ⟨node, hNode, hAssembles⟩ := Arena.exists_assembles_of_tree? hTree
      cases hAssembles
      exact sound_node hEnds hNode rfl (.string s) .string hRun
  | bool b =>
      obtain ⟨node, hNode, hAssembles⟩ := Arena.exists_assembles_of_tree? hTree
      cases hAssembles
      exact sound_node hEnds hNode rfl (.bool b) .bool hRun

/-- The first argument that is left takes a step, so the induction goes on after it; without one
the call is made in the same configuration. -/
theorem sound_evalArgs {scope : Scope} {ρ : Natural.Scope Name} (hEnv : scope.env.Means ρ)
    {callee : Value} {evaluated : List Value} {ids : List NodeId} {d : Datum Name}
    {ds : List (Datum Name)} {es : List (Expr Name)} (hCallee : callee.Means d)
    (hDone : List.Forall₂ Value.Means evaluated.reverse ds)
    (hTrees : List.Forall₂ (fun id e => scope.arena.tree? id = some e) ids es)
    (hRun : run names limit (continueArgs scope callee evaluated ids waiting n) = (o, next)) :
    ∃ r m, Natural.Derives names.lookup (.evalArgs ρ d ds es) n r m ∧
      Continues names limit waiting o next r m := by
  cases hTrees with
  | nil =>
      obtain ⟨r, m, hCall, hContinues⟩ := sound_call ih hEnds hCallee hDone hRun
      exact ⟨r, m, .argsDone hCall, hContinues⟩
  | cons hTree hRest =>
      obtain ⟨r, m, hArg, hContinues⟩ := sound_eval ih hEnds hEnv hTree hRun
      cases hContinues with
      | error hError => exact ⟨_, _, .argFails hArg, .error hError⟩
      | ok hLess hMeans hRun =>
          obtain ⟨limit', hLess', hRun⟩ := exists_run_of_next hRun hEnds rfl
          obtain ⟨r, k, hArgs, hContinues⟩ := ih limit' (by omega)
            (.evalArgs hEnv hCallee (forall₂_reverse_cons hDone hMeans) hRest) hEnds hRun
          exact ⟨r, k, .argsNext hArg hArgs, hContinues.mono (by omega)⟩

end Soundness

/-- A run that ends has derivations of what it did first, however long it took. -/
theorem sound (names : Interner) (limit : Nat) : Sound names limit := by
  induction limit using Nat.strongRecOn with
  | ind limit ih =>
      intro job task waiting n next o hJob hEnds hRun
      cases hJob with
      | eval hEnv hTree => exact sound_eval ih hEnds hEnv hTree hRun
      | evalArgs hEnv hCallee hDone hTrees =>
          exact sound_evalArgs ih hEnds hEnv hCallee hDone hTrees hRun
      | call hCallee hArgs => exact sound_call ih hEnds hCallee hArgs hRun

end ArrowLisp.Machine
