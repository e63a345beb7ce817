import ArrowLisp.Proofs.Arena.WellFormed
import ArrowLisp.Proofs.Hereditary
import ArrowLisp.Proofs.Machine.Runs

/-!
Invariants of runs. `Q` is a property of the places that are evaluated, each a node and its scope,
and `P` one of closures. If places hand `Q` on to the places that are evaluated for them and `P` to
the closures that they make, and closures hand `Q` on to their bodies, then every configuration of a
run has both all over: in what is done, in what waits and in all values, however deep.
-/

namespace ArrowLisp.Machine

variable {names : Interner} {Q : Scope → NodeId → Prop} {P : Closure Value → Prop}

/-- Evaluation hands two properties on, rule by rule. -/
structure HandsOn (Q : Scope → NodeId → Prop) (P : Closure Value → Prop) : Prop where
  condition : ∀ {scope : Scope} {id c t e : NodeId}, Q scope id →
    scope.arena.node? id = some (.conditional c t e) → Q scope c
  branches : ∀ {scope : Scope} {id c t e : NodeId}, Q scope id →
    scope.arena.node? id = some (.conditional c t e) → Q scope t ∧ Q scope e
  callee : ∀ {scope : Scope} {id f : NodeId} {span : Span}, Q scope id →
    scope.arena.node? id = some (.apply f span) → Q scope f
  args : ∀ {scope : Scope} {id f : NodeId} {span : Span} {ids : List NodeId}, Q scope id →
    scope.arena.node? id = some (.apply f span) → scope.arena.args? span = some ids →
    ∀ arg ∈ ids, Q scope arg
  lambda : ∀ {scope : Scope} {id body : NodeId} {span : Span} {params : List Name} (n : Nat),
    Q scope id → scope.arena.node? id = some (.lambda span body) →
    scope.arena.params? span = some params → P ⟨n, params, body, scope.env, scope.arena⟩
  body : ∀ {c : Closure Value} {args : List Value} {env : Environment Value}, P c →
    c.env.extend c.params args = .ok env → Q ⟨c.arena, env⟩ c.body

/-- To hand the first property on to the parts of a node it is enough to know that they are children
of a node that is no lambda. -/
theorem HandsOn.of_children
    (hChild : ∀ {scope : Scope} {id child : NodeId} {node : Node}, Q scope id →
      scope.arena.node? id = some node → (∀ span body, node ≠ .lambda span body) →
        child ∈ scope.arena.children node → Q scope child)
    (hLambda : ∀ {scope : Scope} {id body : NodeId} {span : Span} {params : List Name} (n : Nat),
      Q scope id → scope.arena.node? id = some (.lambda span body) →
        scope.arena.params? span = some params → P ⟨n, params, body, scope.env, scope.arena⟩)
    (hBody : ∀ {c : Closure Value} {args : List Value} {env : Environment Value}, P c →
      c.env.extend c.params args = .ok env → Q ⟨c.arena, env⟩ c.body) : HandsOn Q P where
  condition h hNode := hChild h hNode (by simp) (by simp [Arena.children])
  branches h hNode :=
    ⟨hChild h hNode (by simp) (by simp [Arena.children]),
      hChild h hNode (by simp) (by simp [Arena.children])⟩
  callee h hNode := hChild h hNode (by simp) (by simp [Arena.children])
  args h hNode hIds arg hArg := hChild h hNode (by simp) (by simp [Arena.children, hIds, hArg])
  lambda := hLambda
  body := hBody

/-- The properties in what is being done. -/
inductive Control.Has (Q : Scope → NodeId → Prop) (P : Closure Value → Prop) : Control → Prop where
  | eval {scope : Scope} {id : NodeId} (hPlace : Q scope id) (hEnv : scope.env.Hereditarily P) :
      Has Q P (.eval scope id)
  | call {callee : Value} {args : List Value} (hCallee : callee.Hereditarily P)
      (hArgs : ∀ v ∈ args, v.Hereditarily P) : Has Q P (.call callee args)
  | ret {v : Value} (hValue : v.Hereditarily P) : Has Q P (.ret v)

/-- The properties in what waits. The node whose part is being evaluated is remembered, since its
other parts have `Q` by what it is. -/
inductive Awaiting.Has (Q : Scope → NodeId → Prop) (P : Closure Value → Prop) :
    Awaiting → Prop where
  | condition {scope : Scope} {id c t e : NodeId} (hPlace : Q scope id)
      (hNode : scope.arena.node? id = some (.conditional c t e))
      (hEnv : scope.env.Hereditarily P) : Has Q P (.condition scope t e)
  | callee {scope : Scope} {id f : NodeId} {span : Span} (hPlace : Q scope id)
      (hNode : scope.arena.node? id = some (.apply f span)) (hEnv : scope.env.Hereditarily P) :
      Has Q P (.callee scope span)
  | arg {scope : Scope} {callee : Value} {evaluated : List Value} {ids : List NodeId}
      (hPlaces : ∀ id ∈ ids, Q scope id) (hEnv : scope.env.Hereditarily P)
      (hCallee : callee.Hereditarily P) (hEvaluated : ∀ v ∈ evaluated, v.Hereditarily P) :
      Has Q P (.arg scope callee evaluated ids)

/-- The properties in a moment of a run. -/
structure Configuration.Has (Q : Scope → NodeId → Prop) (P : Closure Value → Prop)
    (c : Configuration) : Prop where
  control : c.control.Has Q P
  waiting : ∀ awaiting ∈ c.waiting, awaiting.Has Q P

theorem has_continueArgs {scope : Scope} {callee : Value} {evaluated : List Value}
    {ids : List NodeId} {waiting : List Awaiting} {n : Nat} (hPlaces : ∀ id ∈ ids, Q scope id)
    (hEnv : scope.env.Hereditarily P) (hCallee : callee.Hereditarily P)
    (hEvaluated : ∀ v ∈ evaluated, v.Hereditarily P)
    (hWaiting : ∀ awaiting ∈ waiting, awaiting.Has Q P) :
    (continueArgs scope callee evaluated ids waiting n).Has Q P := by
  cases ids with
  | nil => exact ⟨.call hCallee fun v hv => hEvaluated v (List.mem_reverse.1 hv), hWaiting⟩
  | cons id ids =>
      have hRest : ∀ id ∈ ids, Q scope id := fun id hId => hPlaces id (List.mem_cons_of_mem _ hId)
      exact ⟨.eval (hPlaces id List.mem_cons_self) hEnv,
        List.forall_mem_cons.2 ⟨.arg hRest hEnv hCallee hEvaluated, hWaiting⟩⟩

namespace HandsOn

variable (h : HandsOn Q P)

include h

theorem evalNode {scope : Scope} {id : NodeId} {node : Node} {waiting : List Awaiting} {n : Nat}
    {d : Configuration} (hPlace : Q scope id) (hEnv : scope.env.Hereditarily P)
    (hNode : scope.arena.node? id = some node)
    (hWaiting : ∀ awaiting ∈ waiting, awaiting.Has Q P)
    (hStep : evalNode names scope waiting n node = .next d) : d.Has Q P := by
  cases node with
  | number x => cases hStep; exact ⟨.ret (.number x), hWaiting⟩
  | string s => cases hStep; exact ⟨.ret (.string s), hWaiting⟩
  | bool b => cases hStep; exact ⟨.ret (.bool b), hWaiting⟩
  | identifier x =>
      rw [Machine.evalNode] at hStep
      split at hStep
      · next v hLookup => cases hStep; exact ⟨.ret (hEnv.lookup hLookup), hWaiting⟩
      · cases hStep
  | conditional c t e =>
      cases hStep
      exact ⟨.eval (h.condition hPlace hNode) hEnv,
        List.forall_mem_cons.2 ⟨.condition hPlace hNode hEnv, hWaiting⟩⟩
  | lambda span body =>
      rw [Machine.evalNode] at hStep
      split at hStep
      · next params hParams =>
          cases hStep
          exact ⟨.ret (.closure (h.lambda n hPlace hNode hParams) hEnv), hWaiting⟩
      · cases hStep
  | apply f span =>
      cases hStep
      exact ⟨.eval (h.callee hPlace hNode) hEnv,
        List.forall_mem_cons.2 ⟨.callee hPlace hNode hEnv, hWaiting⟩⟩

theorem applyValue {callee : Value} {args : List Value} {waiting : List Awaiting} {n : Nat}
    {d : Configuration} (hCallee : callee.Hereditarily P) (hArgs : ∀ v ∈ args, v.Hereditarily P)
    (hWaiting : ∀ awaiting ∈ waiting, awaiting.Has Q P)
    (hStep : applyValue callee args waiting n = .next d) : d.Has Q P := by
  cases callee with
  | number | bool | string => cases hStep
  | primitive op =>
      rw [Machine.applyValue] at hStep
      split at hStep
      · next v hApply =>
          cases hStep
          exact ⟨.ret (Primitive.hereditarily_of_apply hApply), hWaiting⟩
      · cases hStep
  | closure c =>
      rw [Machine.applyValue] at hStep
      split at hStep
      · next env hExtend =>
          cases hStep
          exact ⟨.eval (h.body hCallee.here hExtend) (hCallee.env.extend hArgs hExtend), hWaiting⟩
      · cases hStep

theorem resume {v : Value} {awaiting : Awaiting} {waiting : List Awaiting} {n : Nat}
    {d : Configuration} (hValue : v.Hereditarily P) (hAwaiting : awaiting.Has Q P)
    (hWaiting : ∀ awaiting ∈ waiting, awaiting.Has Q P)
    (hStep : resume v waiting n awaiting = .next d) : d.Has Q P := by
  cases hAwaiting with
  | condition hPlace hNode hEnv =>
      obtain ⟨hT, hE⟩ := h.branches hPlace hNode
      cases v with
      | bool b =>
          cases b with
          | true => cases hStep; exact ⟨.eval hT hEnv, hWaiting⟩
          | false => cases hStep; exact ⟨.eval hE hEnv, hWaiting⟩
      | _ => cases hStep
  | callee hPlace hNode hEnv =>
      rw [Machine.resume] at hStep
      split at hStep
      · split at hStep
        · next ids hIds =>
            cases hStep
            exact has_continueArgs (h.args hPlace hNode hIds) hEnv hValue (by simp) hWaiting
        · cases hStep
      · cases hStep
  | arg hPlaces hEnv hCallee hEvaluated =>
      cases hStep
      exact has_continueArgs hPlaces hEnv hCallee (List.forall_mem_cons.2 ⟨hValue, hEvaluated⟩)
        hWaiting

/-- One step keeps the properties. -/
theorem of_steps {c d : Configuration} (hStep : Steps names c d) (hHas : c.Has Q P) :
    d.Has Q P := by
  obtain ⟨control, waiting, n⟩ := c
  obtain ⟨hControl, hWaiting⟩ := hHas
  cases hControl with
  | @eval scope id hPlace hEnv =>
      cases hNode : scope.arena.node? id with
      | none => simp [Steps, advance, hNode] at hStep
      | some node =>
          simp only [Steps, advance, hNode] at hStep
          exact h.evalNode hPlace hEnv hNode hWaiting hStep
  | call hCallee hArgs => exact h.applyValue hCallee hArgs hWaiting hStep
  | ret hValue =>
      cases waiting with
      | nil => cases hStep
      | cons awaiting waiting =>
          obtain ⟨hAwaiting, hRest⟩ := List.forall_mem_cons.1 hWaiting
          exact h.resume hValue hAwaiting hRest hStep

/-- A run keeps the properties. -/
theorem of_reaches {c d : Configuration} (hReaches : Reaches names c d) (hHas : c.Has Q P) :
    d.Has Q P := by
  induction hReaches with
  | refl => exact hHas
  | tail _ hStep ih => exact h.of_steps hStep ih

end HandsOn

/-- A value with which a run ends has been in its last configuration. -/
theorem Configuration.Has.of_done {c : Configuration} {v : Value} (h : c.Has Q P)
    (hDone : advance names c = .done (.value v)) : v.Hereditarily P := by
  obtain ⟨n, rfl⟩ := eq_ret_of_done hDone
  cases h.control with
  | ret hValue => exact hValue

end ArrowLisp.Machine
