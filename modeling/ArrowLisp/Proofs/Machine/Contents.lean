import ArrowLisp.Proofs.Hereditary
import ArrowLisp.Proofs.Machine.Runs

/-!
Where the values of a run come from. Steps hand values on as they are. What they bring in are
numbers, strings and truth values and, where a lambda is evaluated, one closure over the environment
that is there. The closures that a run makes are numbered in the order in which it makes them.
-/

namespace ArrowLisp

namespace Value

/-- One value is part of another: it is the same or, if the other is a closure, it is part of what
the closure has captured. Bindings that are hidden by an inner frame count as well. -/
inductive Contains : Value → Value → Prop where
  | refl (v : Value) : Contains v v
  | captured {c : Closure Value} {v w : Value} (hMem : v ∈ c.env.values) (h : Contains v w) :
      Contains (.closure c) w

/-- Numbers, strings and truth values. -/
def IsScalar : Value → Prop
  | .number _ | .bool _ | .string _ => True
  | .primitive _ | .closure _ => False

theorem isScalar_of_apply {op : Primitive} {args : List Value} {v : Value}
    (h : op.apply args = .ok v) : v.IsScalar := by
  rcases Primitive.number_or_bool_of_apply h with ⟨x, rfl⟩ | ⟨b, rfl⟩ <;> trivial

/-- Only a closure has parts besides itself. -/
theorem Contains.eq_of_isScalar {v w : Value} (h : v.Contains w) (hv : v.IsScalar) : w = v := by
  cases h with
  | refl => rfl
  | captured => cases hv

end Value

namespace Machine

variable {names : Interner} {c d : Configuration} {v w : Value}

def Control.values : Control → List Value
  | .eval scope _ => scope.env.values
  | .call callee args => callee :: args
  | .ret v => [v]

def Awaiting.values : Awaiting → List Value
  | .condition scope _ _ => scope.env.values
  | .callee scope _ => scope.env.values
  | .arg scope f evaluated _ => f :: (evaluated ++ scope.env.values)

/-- All values in a moment of a run, those in captured environments left out. -/
def Configuration.values (c : Configuration) : List Value :=
  c.control.values ++ c.waiting.flatMap Awaiting.values

/-- A value is part of what there is in a moment of a run. -/
def Configuration.Holds (c : Configuration) (w : Value) : Prop := ∃ v ∈ c.values, v.Contains w

/-- The closure that the next step makes, if it evaluates a lambda. -/
def Configuration.closure? (c : Configuration) : Option (Closure Value) :=
  match c.control with
  | .eval scope id =>
    match scope.arena.node? id with
    | some (.lambda span body) =>
      (scope.arena.params? span).map fun params =>
        ⟨c.nextIdentity, params, body, scope.env, scope.arena⟩
    | _ => none
  | .call _ _ | .ret _ => none

/-- What the next moment of a run can have: values that are there, values that closures there have
captured, scalars, and the closure that is being made. -/
inductive Configuration.Supplies (c : Configuration) : Value → Prop where
  | kept {v : Value} (h : v ∈ c.values) : Supplies c v
  | released {cl : Closure Value} {v : Value} (hClosure : .closure cl ∈ c.values)
      (h : v ∈ cl.env.values) : Supplies c v
  | scalar {v : Value} (h : v.IsScalar) : Supplies c v
  | made {cl : Closure Value} (h : c.closure? = some cl) : Supplies c (.closure cl)

theorem values_mk (control : Control) (waiting : List Awaiting) (n : Nat) :
    Configuration.values ⟨control, waiting, n⟩ =
      control.values ++ waiting.flatMap Awaiting.values := rfl

theorem values_start (control : Control) (n : Nat) :
    Configuration.values ⟨control, [], n⟩ = control.values := by
  rw [values_mk, List.flatMap_nil, List.append_nil]

theorem mem_values_continueArgs {scope : Scope} {callee : Value} {evaluated : List Value}
    {ids : List NodeId} {waiting : List Awaiting} {n : Nat}
    (h : v ∈ (continueArgs scope callee evaluated ids waiting n).values) :
    v ∈ (Awaiting.arg scope callee evaluated ids).values ++ waiting.flatMap Awaiting.values := by
  cases ids <;>
    simp only [continueArgs, values_mk, Control.values, Awaiting.values, List.flatMap_cons,
      List.mem_append, List.mem_cons, List.mem_reverse] at h ⊢ <;>
    grind

theorem supplies_of_evalNode {scope : Scope} {id : NodeId} {node : Node} {waiting : List Awaiting}
    {n : Nat} (hNode : scope.arena.node? id = some node)
    (hStep : evalNode names scope waiting n node = .next d) (hv : v ∈ d.values) :
    Configuration.Supplies ⟨.eval scope id, waiting, n⟩ v := by
  cases node with
  | number | string | bool =>
      cases hStep
      rcases List.mem_append.1 hv with hNew | hWaiting
      · exact .scalar (List.mem_singleton.1 hNew ▸ trivial)
      · exact .kept (List.mem_append_right _ hWaiting)
  | identifier x =>
      rw [evalNode] at hStep
      split at hStep
      · next w hLookup =>
          cases hStep
          rcases List.mem_append.1 hv with hNew | hWaiting
          · rw [List.mem_singleton.1 hNew]
            exact .kept (List.mem_append_left _ (Environment.mem_values_of_lookup hLookup))
          · exact .kept (List.mem_append_right _ hWaiting)
      · cases hStep
  | conditional c t e =>
      cases hStep
      simp only [values_mk, Control.values, Awaiting.values, List.flatMap_cons] at hv
      exact .kept (by simpa [values_mk, Control.values] using hv)
  | lambda span body =>
      rw [evalNode] at hStep
      split at hStep
      · next params hParams =>
          cases hStep
          rcases List.mem_append.1 hv with hNew | hWaiting
          · rw [List.mem_singleton.1 hNew]
            exact .made (by simp only [Configuration.closure?, hNode, hParams, Option.map_some])
          · exact .kept (List.mem_append_right _ hWaiting)
      · cases hStep
  | apply f span =>
      cases hStep
      simp only [values_mk, Control.values, Awaiting.values, List.flatMap_cons] at hv
      exact .kept (by simpa [values_mk, Control.values] using hv)

theorem supplies_of_applyValue {callee : Value} {args : List Value} {waiting : List Awaiting}
    {n : Nat} (hStep : applyValue callee args waiting n = .next d) (hv : v ∈ d.values) :
    Configuration.Supplies ⟨.call callee args, waiting, n⟩ v := by
  cases callee with
  | number | bool | string => cases hStep
  | primitive op =>
      rw [applyValue] at hStep
      split at hStep
      · next w hApply =>
          cases hStep
          rcases List.mem_append.1 hv with hNew | hWaiting
          · rw [List.mem_singleton.1 hNew]
            exact .scalar (Value.isScalar_of_apply hApply)
          · exact .kept (List.mem_append_right _ hWaiting)
      · cases hStep
  | closure cl =>
      rw [applyValue] at hStep
      split at hStep
      · next env hExtend =>
          cases hStep
          obtain ⟨-, rfl⟩ := Environment.extend_eq_ok_iff.1 hExtend
          rcases List.mem_append.1 hv with hEnv | hWaiting
          · rcases Environment.mem_values_withFrame_zip hEnv with hArg | hCaptured
            · exact .kept (List.mem_append_left _ (List.mem_cons_of_mem _ hArg))
            · exact .released (List.mem_append_left _ List.mem_cons_self) hCaptured
          · exact .kept (List.mem_append_right _ hWaiting)
      · cases hStep

theorem supplies_of_resume {awaiting : Awaiting} {waiting : List Awaiting} {n : Nat}
    (hStep : resume w waiting n awaiting = .next d) (hv : v ∈ d.values) :
    Configuration.Supplies ⟨.ret w, awaiting :: waiting, n⟩ v := by
  refine .kept ?_
  rw [values_mk, Control.values, List.flatMap_cons]
  cases awaiting with
  | condition scope t e =>
      cases w with
      | bool b => cases b <;> cases hStep <;> exact List.mem_cons_of_mem _ hv
      | _ => cases hStep
  | callee scope span =>
      rw [resume] at hStep
      split at hStep
      · split at hStep
        · cases hStep
          simpa [Awaiting.values] using mem_values_continueArgs hv
        · cases hStep
      · cases hStep
  | arg scope callee evaluated ids =>
      cases hStep
      have hMem := mem_values_continueArgs hv
      simp only [Awaiting.values, List.mem_append, List.mem_cons, List.not_mem_nil] at hMem ⊢
      grind

/-- A step hands values on and brings in nothing but scalars and the closure that it makes. -/
theorem supplies_of_steps (hStep : Steps names c d) (hv : v ∈ d.values) : c.Supplies v := by
  obtain ⟨control, waiting, n⟩ := c
  cases control with
  | eval scope id =>
      cases hNode : scope.arena.node? id with
      | none => simp [Steps, advance, hNode] at hStep
      | some node =>
          simp only [Steps, advance, hNode] at hStep
          exact supplies_of_evalNode hNode hStep hv
  | call callee args => exact supplies_of_applyValue hStep hv
  | ret w =>
      cases waiting with
      | nil => cases hStep
      | cons awaiting waiting => exact supplies_of_resume hStep hv

/-- A closure is made where a lambda is evaluated: with the next identity, over the environment and
the arena that are there. -/
theorem exists_lambda_of_closure? {cl : Closure Value} (h : c.closure? = some cl) :
    ∃ scope id span body params, c.control = .eval scope id ∧
      scope.arena.node? id = some (.lambda span body) ∧ scope.arena.params? span = some params ∧
      cl = ⟨c.nextIdentity, params, body, scope.env, scope.arena⟩ := by
  simp only [Configuration.closure?] at h
  split at h
  · next scope id hControl =>
      split at h
      · next span body hNode =>
          obtain ⟨params, hParams, rfl⟩ := Option.map_eq_some_iff.1 h
          exact ⟨scope, id, span, body, params, hControl, hNode, hParams, rfl⟩
      · cases h
  · cases h
  · cases h

/-- What a new closure captures is there already. -/
theorem env_subset_of_closure? {cl : Closure Value} (h : c.closure? = some cl) :
    cl.env.values ⊆ c.values := by
  obtain ⟨scope, id, span, body, params, hControl, -, -, rfl⟩ := exists_lambda_of_closure? h
  intro v hv
  rw [Configuration.values, hControl]
  exact List.mem_append_left _ hv

/-- What is part of a moment of a run is part of the moment before, unless it is a scalar or the
closure that the step between them has made. -/
theorem holds_of_steps (hStep : Steps names c d) (h : d.Holds w) :
    c.Holds w ∨ w.IsScalar ∨ ∃ cl, c.closure? = some cl ∧ w = .closure cl := by
  obtain ⟨v, hv, hContains⟩ := h
  cases supplies_of_steps hStep hv with
  | kept hMem => exact .inl ⟨v, hMem, hContains⟩
  | @released cl _ hClosure hMem => exact .inl ⟨.closure cl, hClosure, .captured hMem hContains⟩
  | scalar hScalar =>
      obtain rfl := hContains.eq_of_isScalar hScalar
      exact .inr (.inl hScalar)
  | @made cl hMade =>
      cases hContains with
      | refl => exact .inr (.inr ⟨cl, hMade, rfl⟩)
      | captured hMem hContains => exact .inl ⟨_, env_subset_of_closure? hMade hMem, hContains⟩

/-- Primitives do not come into a run on the way. -/
theorem holds_primitive_of_reaches {op : Primitive} (hReaches : Reaches names c d)
    (h : d.Holds (.primitive op)) : c.Holds (.primitive op) := by
  induction hReaches with
  | refl => exact h
  | tail _ hStep ih =>
      rcases holds_of_steps hStep h with hBefore | hScalar | ⟨_, -, hClosure⟩
      · exact ih hBefore
      · cases hScalar
      · cases hClosure

section Making

variable {steps limit : Nat} {cl : Closure Value}

theorem identity_of_closure? (h : c.closure? = some cl) : cl.identity = c.nextIdentity := by
  obtain ⟨_, _, _, _, _, -, -, -, rfl⟩ := exists_lambda_of_closure? h
  rfl

theorem nextIdentity_continueArgs (scope : Scope) (callee : Value) (evaluated : List Value)
    (ids : List NodeId) (waiting : List Awaiting) (n : Nat) :
    (continueArgs scope callee evaluated ids waiting n).nextIdentity = n := by
  cases ids <;> rfl

theorem nextIdentity_of_resume {awaiting : Awaiting} {waiting : List Awaiting} {n : Nat}
    (hStep : resume w waiting n awaiting = .next d) : d.nextIdentity = n := by
  cases awaiting with
  | condition scope t e =>
      cases w with
      | bool b => cases b <;> cases hStep <;> rfl
      | _ => cases hStep
  | callee scope span =>
      rw [resume] at hStep
      split at hStep
      · split at hStep
        · cases hStep
          exact nextIdentity_continueArgs ..
        · cases hStep
      · cases hStep
  | arg scope callee evaluated ids =>
      cases hStep
      exact nextIdentity_continueArgs ..

/-- Making a closure uses up its identity, and nothing else does. -/
theorem nextIdentity_of_steps (hStep : Steps names c d) :
    d.nextIdentity = c.nextIdentity + c.closure?.toList.length := by
  obtain ⟨control, waiting, n⟩ := c
  cases control with
  | eval scope id =>
      cases hNode : scope.arena.node? id with
      | none => simp [Steps, advance, hNode] at hStep
      | some node =>
          simp only [Steps, advance, hNode] at hStep
          cases node <;> grind [evalNode, Configuration.closure?]
  | call callee args => cases callee <;> grind [Steps, advance, applyValue, Configuration.closure?]
  | ret w =>
      cases waiting with
      | nil => cases hStep
      | cons awaiting waiting => exact nextIdentity_of_resume hStep

/-- The moment of a run after some steps, if the run has not ended before. -/
def moment? (names : Interner) : Nat → Configuration → Option Configuration
  | 0, c => some c
  | steps + 1, c =>
    match advance names c with
    | .next d => moment? names steps d
    | .done _ => none

/-- The closures that the first steps of a run make, in order. -/
def made (names : Interner) : Nat → Configuration → List (Closure Value)
  | 0, _ => []
  | steps + 1, c =>
    match advance names c with
    | .next d => c.closure?.toList ++ made names steps d
    | .done _ => []

theorem moment?_succ_of_steps (h : Steps names c d) (steps : Nat) :
    moment? names (steps + 1) c = moment? names steps d := by
  simp only [moment?, show advance names c = .next d from h]

theorem made_succ_of_steps (h : Steps names c d) (steps : Nat) :
    made names (steps + 1) c = c.closure?.toList ++ made names steps d := by
  simp only [made, show advance names c = .next d from h]

theorem made_of_done {o : Outcome EvalError} (h : advance names c = .done o) (steps : Nat) :
    made names steps c = [] := by
  cases steps with
  | zero => rfl
  | succ steps => simp only [made, h]

theorem made_subset (h : steps ≤ limit) (c : Configuration) :
    made names steps c ⊆ made names limit c := by
  induction steps generalizing c limit with
  | zero => simp [made]
  | succ steps ih =>
      obtain ⟨limit, rfl⟩ := Nat.exists_eq_succ_of_ne_zero (Nat.ne_of_gt (Nat.zero_lt_of_lt h))
      cases hStep : advance names c with
      | next d =>
          rw [made_succ_of_steps hStep, made_succ_of_steps hStep]
          refine List.append_subset.2 ⟨List.subset_append_left _ _, ?_⟩
          exact List.Subset.trans (ih (Nat.le_of_succ_le_succ h) d) (List.subset_append_right _ _)
      | done o => simp [made_of_done hStep]

/-- The closures that a run makes have the identities that are still free, one after another. -/
theorem map_identity_made (limit : Nat) (c : Configuration) :
    (made names limit c).map Closure.identity =
      List.range' c.nextIdentity (made names limit c).length := by
  induction limit generalizing c with
  | zero => rfl
  | succ limit ih =>
      cases hStep : advance names c with
      | next d =>
          have hNext := nextIdentity_of_steps hStep
          rw [made_succ_of_steps hStep, List.map_append, List.length_append, ih, hNext,
            ← List.range'_append_1]
          congr 1
          cases hMade : c.closure? with
          | none => rfl
          | some cl => simp [identity_of_closure? hMade]
      | done o => simp [made_of_done hStep]

/-- A run leaves the identities that it has not used. -/
theorem snd_run (limit : Nat) (c : Configuration) :
    (run names limit c).2 = c.nextIdentity + (made names limit c).length := by
  induction limit generalizing c with
  | zero => rfl
  | succ limit ih =>
      cases hStep : advance names c with
      | next d =>
          rw [run_succ_of_steps hStep, made_succ_of_steps hStep, ih, nextIdentity_of_steps hStep,
            List.length_append, Nat.add_assoc]
      | done o => rw [run_succ_of_done hStep, made_of_done hStep]; rfl

/-- A closure that is part of a moment of a run was there from the start, with the same identity, or
the run has made it. -/
theorem holds_of_moment? (hMoment : moment? names steps c = some d) (h : d.Holds (.closure cl)) :
    c.Holds (.closure cl) ∨ cl ∈ made names steps c := by
  induction steps generalizing c with
  | zero =>
      cases hMoment
      exact .inl h
  | succ steps ih =>
      cases hStep : advance names c with
      | next d' =>
          rw [moment?_succ_of_steps hStep] at hMoment
          rw [made_succ_of_steps hStep, List.mem_append, Option.mem_toList]
          rcases ih hMoment with hHolds | hMade
          · rcases holds_of_steps hStep hHolds with hBefore | hScalar | ⟨_, hMade, hClosure⟩
            · exact .inl hBefore
            · cases hScalar
            · cases hClosure
              exact .inr (.inl hMade)
          · exact .inr (.inr hMade)
      | done o => simp [moment?, hStep] at hMoment

/-- The value of a run is in one of its moments. -/
theorem exists_moment?_of_run {limit : Nat} {v : Value} (h : (run names limit c).1 = .value v) :
    ∃ steps ≤ limit, ∃ n, moment? names steps c = some ⟨.ret v, [], n⟩ := by
  induction limit generalizing c with
  | zero => cases h
  | succ limit ih =>
      cases hStep : advance names c with
      | next d =>
          rw [run_succ_of_steps hStep] at h
          obtain ⟨steps, hLe, n, hMoment⟩ := ih h
          exact ⟨steps + 1, Nat.succ_le_succ hLe, n, by rw [moment?_succ_of_steps hStep, hMoment]⟩
      | done o =>
          rw [run_succ_of_done hStep] at h
          obtain ⟨n, rfl⟩ := eq_ret_of_done (hStep.trans (congrArg Advance.done h))
          exact ⟨0, Nat.zero_le _, n, rfl⟩

/-- A closure that is part of the value of a run was there from the start, with the same identity,
or the run has made it. -/
theorem holds_of_run {v : Value} (hRun : (run names limit c).1 = .value v)
    (h : v.Contains (.closure cl)) : c.Holds (.closure cl) ∨ cl ∈ made names limit c := by
  obtain ⟨steps, hLe, n, hMoment⟩ := exists_moment?_of_run hRun
  have hHolds : Configuration.Holds ⟨.ret v, [], n⟩ (.closure cl) :=
    ⟨v, List.mem_singleton_self v, h⟩
  exact (holds_of_moment? hMoment hHolds).imp_right fun hMade => made_subset hLe c hMade

end Making

end Machine

end ArrowLisp
