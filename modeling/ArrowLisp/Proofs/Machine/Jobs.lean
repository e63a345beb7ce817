import ArrowLisp.Proofs.Machine.Runs

/-!
What the machine is asked for, apart from who waits for the result. A job that yields a result
delivers it on top of anything that waits, so the yields of a node follow from those of its parts.
-/

namespace ArrowLisp.Machine

variable {names : Interner}

/-- What the machine can be asked to deliver. -/
inductive Job where
  /-- Evaluate a node. -/
  | eval (scope : Scope) (id : NodeId)
  /-- Evaluate the arguments that are left and apply the callee. Those done are in reverse. -/
  | evalArgs (scope : Scope) (callee : Value) (evaluated : List Value) (args : List NodeId)
  /-- Apply a value to arguments. -/
  | call (callee : Value) (args : List Value)

/-- The configuration in which a job begins. -/
def Job.start (waiting : List Awaiting) (next : Nat) : Job → Configuration
  | .eval scope id => ⟨.eval scope id, waiting, next⟩
  | .evalArgs scope callee evaluated args => continueArgs scope callee evaluated args waiting next
  | .call callee args => ⟨.call callee args, waiting, next⟩

theorem advance_eval {scope : Scope} {id : NodeId} {node : Node} {waiting : List Awaiting}
    {next : Nat} {a : Advance} (hNode : scope.arena.node? id = some node)
    (h : evalNode names scope waiting next node = a) :
    advance names ⟨.eval scope id, waiting, next⟩ = a := by
  simp only [advance, hNode, h]

theorem advance_call_primitive {op : Primitive} {args : List Value} {v : Value}
    (h : op.apply args = .ok v) (waiting : List Awaiting) (next : Nat) :
    advance names ⟨.call (.primitive op) args, waiting, next⟩ =
      .next ⟨.ret v, waiting, next⟩ := by
  simp only [advance, applyValue, h]

theorem advance_call_primitive_error {op : Primitive} {args : List Value} {e : EvalError}
    (h : op.apply args = .error e) (waiting : List Awaiting) (next : Nat) :
    advance names ⟨.call (.primitive op) args, waiting, next⟩ = .done (.error e) := by
  simp only [advance, applyValue, h]

theorem advance_call_closure {c : Closure Value} {args : List Value} {env : Environment Value}
    (h : c.env.extend c.params args = .ok env) (waiting : List Awaiting) (next : Nat) :
    advance names ⟨.call (.closure c) args, waiting, next⟩ =
      .next ⟨.eval ⟨c.arena, env⟩ c.body, waiting, next⟩ := by
  simp only [advance, applyValue, h]

theorem advance_call_closure_error {c : Closure Value} {args : List Value} {e : EvalError}
    (h : c.env.extend c.params args = .error e) (waiting : List Awaiting) (next : Nat) :
    advance names ⟨.call (.closure c) args, waiting, next⟩ = .done (.error e) := by
  simp only [advance, applyValue, h]

theorem advance_call_notCallable {v : Value} (h : v.isCallable = false) (args : List Value)
    (waiting : List Awaiting) (next : Nat) :
    advance names ⟨.call v args, waiting, next⟩ =
      .done (.error (.typeMismatch (.notCallable v.kind))) := by
  cases v <;> first | rfl | cases h

theorem resume_condition_notBool {v : Value} (h : ∀ b, v ≠ .bool b) (waiting : List Awaiting)
    (next : Nat) (scope : Scope) (t e : NodeId) :
    resume v waiting next (.condition scope t e) =
      .done (.error (.typeMismatch (.conditionNotBool v.kind))) := by
  cases v with
  | bool b => exact absurd rfl (h b)
  | _ => rfl

theorem resume_callee {v : Value} (h : v.isCallable = true) {scope : Scope} {span : Span}
    {ids : List NodeId} (hIds : scope.arena.args? span = some ids) (waiting : List Awaiting)
    (next : Nat) :
    resume v waiting next (.callee scope span) =
      .next ((Job.evalArgs scope v [] ids).start waiting next) := by
  simp only [resume, h, hIds, if_true, Job.start]

theorem resume_callee_notCallable {v : Value} (h : v.isCallable = false) (scope : Scope)
    (span : Span) (waiting : List Awaiting) (next : Nat) :
    resume v waiting next (.callee scope span) =
      .done (.error (.typeMismatch (.notCallable v.kind))) := by
  simp [resume, h]

/-- A job delivers a result to whoever waits for it. -/
def Job.Yields (names : Interner) (job : Job) (next : Nat) (r : Except EvalError Value)
    (next' : Nat) : Prop :=
  ∀ waiting, Delivers names (job.start waiting next) waiting r next'

namespace Job.Yields

variable {scope : Scope} {id c t e : NodeId} {span : Span} {ids : List NodeId} {v w : Value}
  {vs : List Value} {n m k : Nat} {r : Except EvalError Value} {err : EvalError}

theorem of_ret {node : Node} (hNode : scope.arena.node? id = some node)
    (h : ∀ waiting, evalNode names scope waiting n node = .next ⟨.ret v, waiting, m⟩) :
    (eval scope id).Yields names n (.ok v) m :=
  fun waiting => .of_steps (advance_eval hNode (h waiting)) (.value .refl)

theorem unbound {x : Name} (hNode : scope.arena.node? id = some (.identifier x))
    (hLookup : scope.env.lookup x = none) :
    (eval scope id).Yields names n (.error (.unboundIdentifier (names.lookup x))) n :=
  fun _ => .error .refl (advance_eval hNode (by rw [evalNode, hLookup]))

theorem consequent (hNode : scope.arena.node? id = some (.conditional c t e))
    (hCondition : (eval scope c).Yields names n (.ok (.bool true)) m)
    (hBranch : (eval scope t).Yields names m r k) : (eval scope id).Yields names n r k :=
  fun waiting => .of_steps (advance_eval hNode rfl) ((hCondition _).resume rfl (hBranch waiting))

theorem alternative (hNode : scope.arena.node? id = some (.conditional c t e))
    (hCondition : (eval scope c).Yields names n (.ok (.bool false)) m)
    (hBranch : (eval scope e).Yields names m r k) : (eval scope id).Yields names n r k :=
  fun waiting => .of_steps (advance_eval hNode rfl) ((hCondition _).resume rfl (hBranch waiting))

theorem condition_fails (hNode : scope.arena.node? id = some (.conditional c t e))
    (hCondition : (eval scope c).Yields names n (.error err) m) :
    (eval scope id).Yields names n (.error err) m :=
  fun _ => .of_steps (advance_eval hNode rfl) (hCondition _).fail

theorem condition_notBool (hNode : scope.arena.node? id = some (.conditional c t e))
    (hCondition : (eval scope c).Yields names n (.ok v) m) (hKind : ∀ b, v ≠ .bool b) :
    (eval scope id).Yields names n (.error (.typeMismatch (.conditionNotBool v.kind))) m :=
  fun _ => .of_steps (advance_eval hNode rfl)
    ((hCondition _).refuse (resume_condition_notBool hKind _ _ _ _ _))

theorem apply (hNode : scope.arena.node? id = some (.apply c span))
    (hIds : scope.arena.args? span = some ids) (hCallee : (eval scope c).Yields names n (.ok v) m)
    (hCallable : v.isCallable = true) (hArgs : (evalArgs scope v [] ids).Yields names m r k) :
    (eval scope id).Yields names n r k :=
  fun waiting => .of_steps (advance_eval hNode rfl)
    ((hCallee _).resume (resume_callee hCallable hIds _ _) (hArgs waiting))

theorem callee_fails (hNode : scope.arena.node? id = some (.apply c span))
    (hCallee : (eval scope c).Yields names n (.error err) m) :
    (eval scope id).Yields names n (.error err) m :=
  fun _ => .of_steps (advance_eval hNode rfl) (hCallee _).fail

theorem callee_notCallable (hNode : scope.arena.node? id = some (.apply c span))
    (hCallee : (eval scope c).Yields names n (.ok v) m) (hCallable : v.isCallable = false) :
    (eval scope id).Yields names n (.error (.typeMismatch (.notCallable v.kind))) m :=
  fun _ => .of_steps (advance_eval hNode rfl)
    ((hCallee _).refuse (resume_callee_notCallable hCallable _ _ _ _))

theorem args_done (hCall : (call v vs.reverse).Yields names n r m) :
    (evalArgs scope v vs []).Yields names n r m :=
  hCall

theorem args_next (hArg : (eval scope id).Yields names n (.ok w) m)
    (hRest : (evalArgs scope v (w :: vs) ids).Yields names m r k) :
    (evalArgs scope v vs (id :: ids)).Yields names n r k :=
  fun waiting => (hArg _).resume rfl (hRest waiting)

theorem arg_fails (hArg : (eval scope id).Yields names n (.error err) m) :
    (evalArgs scope v vs (id :: ids)).Yields names n (.error err) m :=
  fun _ => (hArg _).fail

theorem primitive {op : Primitive} (h : op.apply vs = r) :
    (call (.primitive op) vs).Yields names n r n := by
  intro waiting
  cases r with
  | ok v => exact .value (.single (advance_call_primitive h waiting n))
  | error e => exact .error .refl (advance_call_primitive_error h waiting n)

theorem closure {cl : Closure Value} {env : Environment Value}
    (hExtend : cl.env.extend cl.params vs = .ok env)
    (hBody : (eval ⟨cl.arena, env⟩ cl.body).Yields names n r m) :
    (call (.closure cl) vs).Yields names n r m :=
  fun waiting => .of_steps (advance_call_closure hExtend waiting n) (hBody waiting)

theorem wrongArity {cl : Closure Value} (hExtend : cl.env.extend cl.params vs = .error err) :
    (call (.closure cl) vs).Yields names n (.error err) n :=
  fun waiting => .error .refl (advance_call_closure_error hExtend waiting n)

theorem call_notCallable (hCallable : v.isCallable = false) :
    (call v vs).Yields names n (.error (.typeMismatch (.notCallable v.kind))) n :=
  fun waiting => .error .refl (advance_call_notCallable hCallable vs waiting n)

end Job.Yields

end ArrowLisp.Machine
