import ArrowLisp.Proofs.Hereditary
import ArrowLisp.Proofs.Machine.Endings
import ArrowLisp.Proofs.Resemblance

/-!
Runs side by side. A coupling says which identities of closures, which values and which places stand
for each other in two runs. If closures that stand for each other have bodies that do, and places
that stand for each other begin in the same way, then the runs go on together and end in the same
way. They may go step by step, or the first one may need more steps than the second to come to the
next place.
-/

namespace ArrowLisp

/-- Runs that end in the same way: with related values, or with the same error. -/
inductive Outcome.Relates {ε : Type} (V : Value → Value → Prop) : Outcome ε → Outcome ε → Prop where
  | value {v w : Value} (h : V v w) : Relates V (.value v) (.value w)
  | error (e : ε) : Relates V (.error e) (.error e)
  | dangling : Relates V .dangling .dangling
  | unfinished : Relates V .unfinished .unfinished

/-- The value that a node has without any step: that of a literal, or of an identifier. -/
def Node.value? (env : Environment Value) : Node → Option Value
  | .number x => some (.number x)
  | .string s => some (.string s)
  | .bool b => some (.bool b)
  | .identifier x => env.lookup x
  | .conditional .. | .lambda .. | .apply .. => none

namespace Machine

/-- What stands for what in two runs: identities of closures, values, and places, that is, nodes in
the scopes in which they are evaluated. -/
structure Coupling where
  identity : Nat → Nat → Prop
  value : Value → Value → Prop
  place : Scope → NodeId → Scope → NodeId → Prop

/-- A coupling that evaluation respects. Values look alike, and applying closures to values that
stand for each other leads to places that do. -/
structure Coupling.Sound (R : Coupling) : Prop where
  unique : Relator.BiUnique R.identity
  resembles : ∀ {v w : Value}, R.value v w → v.Resembles R.identity w
  number : ∀ x, R.value (.number x) (.number x)
  bool : ∀ b, R.value (.bool b) (.bool b)
  length_eq : ∀ {c d : Closure Value}, R.value (.closure c) (.closure d) →
    c.params.length = d.params.length
  body : ∀ {c d : Closure Value} {vs ws : List Value}, R.value (.closure c) (.closure d) →
    List.Forall₂ R.value vs ws → c.params.length = vs.length →
      R.place ⟨c.arena, c.env.withFrame (c.params.zip vs)⟩ c.body
        ⟨d.arena, d.env.withFrame (d.params.zip ws)⟩ d.body

variable {R : Coupling} {names names' : Interner}

/-- Nodes that begin in the same way: both have values, both are unbound and reported with the same
text, or they are of one form with parts that stand for each other. -/
inductive Coupling.Nodes (R : Coupling) (names names' : Interner) (scope scope' : Scope) :
    Node → Node → Prop where
  | value {node node' : Node} {v w : Value} (hLeft : node.value? scope.env = some v)
      (hRight : node'.value? scope'.env = some w) (hValue : R.value v w) :
      Nodes R names names' scope scope' node node'
  | unbound {x y : Name} (hLeft : scope.env.lookup x = none) (hRight : scope'.env.lookup y = none)
      (hText : names.lookup x = names'.lookup y) :
      Nodes R names names' scope scope' (.identifier x) (.identifier y)
  | conditional {c t e c' t' e' : NodeId} (hCondition : R.place scope c scope' c')
      (hConsequent : R.place scope t scope' t') (hAlternative : R.place scope e scope' e') :
      Nodes R names names' scope scope' (.conditional c t e) (.conditional c' t' e')
  | lambda {span span' : Span} {body body' : NodeId}
      (hClosures : Option.Rel (fun params params' => ∀ k l, R.identity k l →
          R.value (.closure ⟨k, params, body, scope.env, scope.arena⟩)
            (.closure ⟨l, params', body', scope'.env, scope'.arena⟩))
        (scope.arena.params? span) (scope'.arena.params? span')) :
      Nodes R names names' scope scope' (.lambda span body) (.lambda span' body')
  | apply {f f' : NodeId} {span span' : Span} (hCallee : R.place scope f scope' f')
      (hArgs : Option.Rel (List.Forall₂ fun id id' => R.place scope id scope' id')
        (scope.arena.args? span) (scope'.arena.args? span')) :
      Nodes R names names' scope scope' (.apply f span) (.apply f' span')

/-- Places whose nodes begin in the same way. -/
def Coupling.Begins (R : Coupling) (names names' : Interner) (scope : Scope) (id : NodeId)
    (scope' : Scope) (id' : NodeId) : Prop :=
  Option.Rel (R.Nodes names names' scope scope') (scope.arena.node? id) (scope'.arena.node? id')

theorem Coupling.Nodes.begins {scope scope' : Scope} {id id' : NodeId} {node node' : Node}
    (h : R.Nodes names names' scope scope' node node') (hNode : scope.arena.node? id = some node)
    (hNode' : scope'.arena.node? id' = some node') : R.Begins names names' scope id scope' id' := by
  rw [Begins, hNode, hNode']
  exact .some h

/-- Controls that stand for each other, where `P` says which places do. -/
inductive Coupling.Controls (R : Coupling) (P : Scope → NodeId → Scope → NodeId → Prop) :
    Control → Control → Prop where
  | eval {scope scope' : Scope} {id id' : NodeId} (hPlace : P scope id scope' id') :
      Controls R P (.eval scope id) (.eval scope' id')
  | call {callee callee' : Value} {args args' : List Value} (hCallee : R.value callee callee')
      (hArgs : List.Forall₂ R.value args args') :
      Controls R P (.call callee args) (.call callee' args')
  | ret {v w : Value} (hValue : R.value v w) : Controls R P (.ret v) (.ret w)

inductive Coupling.Waits (R : Coupling) : Awaiting → Awaiting → Prop where
  | condition {scope scope' : Scope} {t e t' e' : NodeId} (hConsequent : R.place scope t scope' t')
      (hAlternative : R.place scope e scope' e') :
      Waits R (.condition scope t e) (.condition scope' t' e')
  | callee {scope scope' : Scope} {span span' : Span}
      (hArgs : Option.Rel (List.Forall₂ fun id id' => R.place scope id scope' id')
        (scope.arena.args? span) (scope'.arena.args? span')) :
      Waits R (.callee scope span) (.callee scope' span')
  | arg {scope scope' : Scope} {callee callee' : Value} {evaluated evaluated' : List Value}
      {ids ids' : List NodeId} (hCallee : R.value callee callee')
      (hEvaluated : List.Forall₂ R.value evaluated evaluated')
      (hArgs : List.Forall₂ (fun id id' => R.place scope id scope' id') ids ids') :
      Waits R (.arg scope callee evaluated ids) (.arg scope' callee' evaluated' ids')

/-- Moments of two runs that stand for each other. The identities that are still to be given
correspond in order. -/
structure Coupling.Moments (R : Coupling) (P : Scope → NodeId → Scope → NodeId → Prop)
    (c d : Configuration) : Prop where
  control : R.Controls P c.control d.control
  waiting : List.Forall₂ R.Waits c.waiting d.waiting
  identity : ∀ k, R.identity (c.nextIdentity + k) (d.nextIdentity + k)

inductive Coupling.Advances (R : Coupling) : Advance → Advance → Prop where
  | next {c d : Configuration} (h : R.Moments R.place c d) :
      Advances R (.next c) (.next d)
  | done {o o' : Outcome EvalError} (h : o.Relates R.value o') : Advances R (.done o) (.done o')

section Step

variable {scope scope' : Scope} {waiting waiting' : List Awaiting} {n n' : Nat}

theorem evalNode_of_value? {node : Node} {v : Value} (h : node.value? scope.env = some v)
    (waiting : List Awaiting) (n : Nat) :
    evalNode names scope waiting n node = .next ⟨.ret v, waiting, n⟩ := by
  cases node with
  | number | string | bool => cases h; rfl
  | identifier x => rw [evalNode, show scope.env.lookup x = some v from h]
  | conditional | lambda | apply => cases h

theorem Coupling.continueArgs {callee callee' : Value} {evaluated evaluated' : List Value}
    {ids ids' : List NodeId} (hCallee : R.value callee callee')
    (hEvaluated : List.Forall₂ R.value evaluated evaluated')
    (hArgs : List.Forall₂ (fun id id' => R.place scope id scope' id') ids ids')
    (hWaiting : List.Forall₂ R.Waits waiting waiting')
    (hIdentity : ∀ k, R.identity (n + k) (n' + k)) :
    R.Moments R.place (Machine.continueArgs scope callee evaluated ids waiting n)
      (Machine.continueArgs scope' callee' evaluated' ids' waiting' n') := by
  cases hArgs with
  | nil => exact ⟨.call hCallee (List.rel_reverse hEvaluated), hWaiting, hIdentity⟩
  | cons hHead hTail =>
      exact ⟨.eval hHead, .cons (.arg hCallee hEvaluated hTail) hWaiting, hIdentity⟩

theorem Coupling.Nodes.advance {node node' : Node}
    (h : R.Nodes names names' scope scope' node node')
    (hWaiting : List.Forall₂ R.Waits waiting waiting')
    (hIdentity : ∀ k, R.identity (n + k) (n' + k)) :
    R.Advances (evalNode names scope waiting n node)
      (evalNode names' scope' waiting' n' node') := by
  cases h with
  | value hLeft hRight hValue =>
      rw [evalNode_of_value? hLeft, evalNode_of_value? hRight]
      exact .next ⟨.ret hValue, hWaiting, hIdentity⟩
  | unbound hLeft hRight hText =>
      rw [evalNode, evalNode, hLeft, hRight, hText]
      exact .done (.error _)
  | conditional hCondition hConsequent hAlternative =>
      exact .next
        ⟨.eval hCondition, .cons (.condition hConsequent hAlternative) hWaiting, hIdentity⟩
  | @lambda span span' body body' hClosures =>
      rw [evalNode, evalNode]
      generalize scope.arena.params? span = params, scope'.arena.params? span' = params'
        at hClosures
      cases hClosures with
      | none => exact .done .dangling
      | some hClosure =>
          refine .next ⟨.ret (hClosure _ _ (hIdentity 0)), hWaiting, fun k => ?_⟩
          simpa only [Nat.add_assoc] using hIdentity (1 + k)
  | apply hCallee hArgs =>
      exact .next ⟨.eval hCallee, .cons (.callee hArgs) hWaiting, hIdentity⟩

theorem Coupling.Sound.applyValue (hR : R.Sound) {callee callee' : Value} {args args' : List Value}
    (hCallee : R.value callee callee') (hArgs : List.Forall₂ R.value args args')
    (hWaiting : List.Forall₂ R.Waits waiting waiting')
    (hIdentity : ∀ k, R.identity (n + k) (n' + k)) :
    R.Advances (Machine.applyValue callee args waiting n)
      (Machine.applyValue callee' args' waiting' n') := by
  cases hR.resembles hCallee with
  | number | bool | string => exact .done (.error _)
  | primitive op =>
      have hSame := op.apply_eq_of_resembles hR.unique (hArgs.imp fun _ _ => hR.resembles)
      rw [Machine.applyValue, Machine.applyValue, ← hSame]
      cases hApply : op.apply args with
      | error e => exact .done (.error e)
      | ok v =>
          refine .next ⟨.ret ?_, hWaiting, hIdentity⟩
          rcases Primitive.number_or_bool_of_apply hApply with ⟨x, rfl⟩ | ⟨b, rfl⟩
          · exact hR.number x
          · exact hR.bool b
  | @closure c d =>
      have hParams := hR.length_eq hCallee
      rw [Machine.applyValue, Machine.applyValue, Environment.extend, Environment.extend,
        ← hParams, ← hArgs.length_eq]
      by_cases hLength : c.params.length = args.length
      · rw [if_pos hLength, if_pos hLength]
        exact .next ⟨.eval (hR.body hCallee hArgs hLength), hWaiting, hIdentity⟩
      · rw [if_neg hLength, if_neg hLength]
        exact .done (.error _)

theorem Coupling.Sound.resume (hR : R.Sound) {v w : Value} (hValue : R.value v w)
    {awaiting awaiting' : Awaiting} (hAwaiting : R.Waits awaiting awaiting')
    (hWaiting : List.Forall₂ R.Waits waiting waiting')
    (hIdentity : ∀ k, R.identity (n + k) (n' + k)) :
    R.Advances (Machine.resume v waiting n awaiting) (Machine.resume w waiting' n' awaiting') := by
  have hLooks := hR.resembles hValue
  cases hAwaiting with
  | condition hConsequent hAlternative =>
      cases hLooks with
      | bool b =>
          cases b with
          | true => exact .next ⟨.eval hConsequent, hWaiting, hIdentity⟩
          | false => exact .next ⟨.eval hAlternative, hWaiting, hIdentity⟩
      | _ => exact .done (.error _)
  | @callee scope scope' span span' hArgs =>
      rw [Machine.resume, Machine.resume, hLooks.isCallable_eq, hLooks.kind_eq]
      split
      · generalize scope.arena.args? span = ids, scope'.arena.args? span' = ids' at hArgs
        cases hArgs with
        | none => exact .done .dangling
        | some hArgs => exact .next (Coupling.continueArgs hValue .nil hArgs hWaiting hIdentity)
      · exact .done (.error _)
  | arg hCallee hEvaluated hArgs =>
      exact .next
        (Coupling.continueArgs hCallee (.cons hValue hEvaluated) hArgs hWaiting hIdentity)

end Step

variable {c d : Configuration} {r r' : Outcome EvalError × Nat}

/-- One step leads from moments that stand for each other to such moments, or ends both runs in the
same way. -/
theorem Coupling.Sound.advance (hR : R.Sound) (h : R.Moments (R.Begins names names') c d) :
    R.Advances (Machine.advance names c) (Machine.advance names' d) := by
  obtain ⟨control, waiting, n⟩ := c
  obtain ⟨control', waiting', n'⟩ := d
  obtain ⟨hControl, hWaiting, hIdentity⟩ := h
  cases hControl with
  | @eval scope scope' id id' hPlace =>
      rw [Coupling.Begins] at hPlace
      simp only [Machine.advance]
      generalize scope.arena.node? id = node, scope'.arena.node? id' = node' at hPlace
      cases hPlace with
      | none => exact .done .dangling
      | some hNodes => exact hNodes.advance hWaiting hIdentity
  | call hCallee hArgs => exact hR.applyValue hCallee hArgs hWaiting hIdentity
  | ret hValue =>
      cases hWaiting with
      | nil => exact .done (.value hValue)
      | cons hAwaiting hWaiting => exact hR.resume hValue hAwaiting hWaiting hIdentity

theorem Coupling.Moments.imp {P P' : Scope → NodeId → Scope → NodeId → Prop}
    (h : R.Moments P c d)
    (hImp : ∀ ⦃scope id scope' id'⦄, P scope id scope' id' → P' scope id scope' id') :
    R.Moments P' c d := by
  obtain ⟨control, waiting, n⟩ := c
  obtain ⟨control', waiting', n'⟩ := d
  obtain ⟨hControl, hWaiting, hIdentity⟩ := h
  refine ⟨?_, hWaiting, hIdentity⟩
  cases hControl with
  | eval hPlace => exact .eval (hImp hPlace)
  | call hCallee hArgs => exact .call hCallee hArgs
  | ret hValue => exact .ret hValue

/-- The results of two runs: the same outcome, and identities that are still to be given which
correspond in order. -/
structure Coupling.Results (R : Coupling) (r r' : Outcome EvalError × Nat) : Prop where
  outcome : r.1.Relates R.value r'.1
  identity : ∀ k, R.identity (r.2 + k) (r'.2 + k)

/-- Places that stand for each other begin in the same way. -/
def Coupling.KeepsStep (R : Coupling) (names names' : Interner) : Prop :=
  ∀ ⦃scope : Scope⦄ ⦃id : NodeId⦄ ⦃scope' : Scope⦄ ⦃id' : NodeId⦄,
    R.place scope id scope' id' → R.Begins names names' scope id scope' id'

/-- From its place the first run comes to a node of the same scope that begins as the place of the
second run does. -/
def Coupling.BeginsLater (R : Coupling) (names names' : Interner) (scope : Scope) (id : NodeId)
    (scope' : Scope) (id' : NodeId) : Prop :=
  ∃ id₁, (∀ waiting n,
      Reaches names ⟨.eval scope id, waiting, n⟩ ⟨.eval scope id₁, waiting, n⟩) ∧
    R.Begins names names' scope id₁ scope' id'

theorem Coupling.Begins.later {scope scope' : Scope} {id id' : NodeId}
    (h : R.Begins names names' scope id scope' id') :
    R.BeginsLater names names' scope id scope' id' :=
  ⟨id, fun _ _ => .refl, h⟩

/-- From places that stand for each other the first run comes to one that begins as the place of the
second run does. -/
def Coupling.CatchesUp (R : Coupling) (names names' : Interner) : Prop :=
  ∀ ⦃scope : Scope⦄ ⦃id : NodeId⦄ ⦃scope' : Scope⦄ ⦃id' : NodeId⦄,
    R.place scope id scope' id' → R.BeginsLater names names' scope id scope' id'

theorem Coupling.KeepsStep.catchesUp (h : R.KeepsStep names names') : R.CatchesUp names names' :=
  fun _ _ _ _ hPlace => (h hPlace).later

theorem Coupling.CatchesUp.moments (hCatch : R.CatchesUp names names')
    (h : R.Moments R.place c d) :
    ∃ c₁, Reaches names c c₁ ∧ R.Moments (R.Begins names names') c₁ d := by
  obtain ⟨control, waiting, n⟩ := c
  obtain ⟨control', waiting', n'⟩ := d
  obtain ⟨hControl, hWaiting, hIdentity⟩ := h
  cases hControl with
  | eval hPlace =>
      obtain ⟨id₁, hReaches, hBegins⟩ := hCatch hPlace
      exact ⟨_, hReaches waiting n, .eval hBegins, hWaiting, hIdentity⟩
  | call hCallee hArgs => exact ⟨_, .refl, .call hCallee hArgs, hWaiting, hIdentity⟩
  | ret hValue => exact ⟨_, .refl, .ret hValue, hWaiting, hIdentity⟩

namespace Coupling.Sound

variable (hR : R.Sound)

include hR

/-- Runs that keep step have the same result within the same limit. -/
theorem run (hKeeps : R.KeepsStep names names') (h : R.Moments R.place c d) (limit : Nat) :
    R.Results (Machine.run names limit c) (Machine.run names' limit d) := by
  induction limit generalizing c d with
  | zero => exact ⟨.unfinished, h.identity⟩
  | succ limit ih =>
      have hStep := hR.advance (h.imp hKeeps)
      rw [Machine.run, Machine.run]
      generalize Machine.advance names c = a, Machine.advance names' d = b at hStep
      cases hStep with
      | next hNext => exact ih hNext
      | done hDone => exact ⟨hDone, h.identity⟩

/-- Runs that keep step come to moments that stand for each other. -/
theorem exists_reaches {c' : Configuration} (hKeeps : R.KeepsStep names names')
    (h : R.Moments R.place c d) (hReaches : Reaches names c c') :
    ∃ d', Reaches names' d d' ∧ R.Moments R.place c' d' := by
  induction hReaches with
  | refl => exact ⟨d, .refl, h⟩
  | @tail c₁ c₂ _ hStep ih =>
      obtain ⟨d₁, hReaches, h⟩ := ih
      have hAdvances := hR.advance (h.imp hKeeps)
      rw [show Machine.advance names c₁ = .next c₂ from hStep] at hAdvances
      generalize hStep' : Machine.advance names' d₁ = a at hAdvances
      cases hAdvances with
      | next hNext => exact ⟨_, hReaches.tail hStep', hNext⟩

/-- If the first run ends, which is on its way to a moment that stands for one of the second run,
then the second one ends with the same result. -/
theorem ends_on_the_way {c₁ : Configuration} (hCatch : R.CatchesUp names names')
    (hEnds : Ends names c r) (hReaches : Reaches names c c₁)
    (h : R.Moments (R.Begins names names') c₁ d) : ∃ r', Ends names' d r' ∧ R.Results r r' := by
  induction hEnds generalizing c₁ d with
  | done hDone =>
      rcases hReaches.cases_head with rfl | ⟨_, hStep, -⟩
      · have hAdvances := hR.advance h
        rw [hDone] at hAdvances
        generalize hDone' : Machine.advance names' d = a at hAdvances
        cases hAdvances with
        | done hOutcome => exact ⟨_, .done hDone', hOutcome, h.identity⟩
      · cases hDone.symm.trans hStep
  | @step c c' r hStep _ ih =>
      rcases hReaches.cases_head with rfl | ⟨_, hOther, hReaches⟩
      · have hAdvances := hR.advance h
        rw [show Machine.advance names c = .next c' from hStep] at hAdvances
        generalize hStep' : Machine.advance names' d = a at hAdvances
        cases hAdvances with
        | next hNext =>
            obtain ⟨c₂, hReaches, hNext⟩ := hCatch.moments hNext
            obtain ⟨r', hEnds', hResults⟩ := ih hReaches hNext
            exact ⟨r', .step hStep' hEnds', hResults⟩
      · cases hOther.symm.trans hStep
        exact ih hReaches h

/-- If the first run ends, then the second one ends with the same result. -/
theorem ends (hCatch : R.CatchesUp names names') (h : R.Moments R.place c d)
    (hEnds : Ends names c r) : ∃ r', Ends names' d r' ∧ R.Results r r' := by
  obtain ⟨c₁, hReaches, h⟩ := hCatch.moments h
  exact hR.ends_on_the_way hCatch hEnds hReaches h

/-- If the second run ends, then the first one ends with the same result. -/
theorem ends_back (hCatch : R.CatchesUp names names') (h : R.Moments R.place c d)
    (hEnds : Ends names' d r') : ∃ r, Ends names c r ∧ R.Results r r' := by
  induction hEnds generalizing c with
  | @done d o hDone =>
      obtain ⟨c₁, hReaches, h⟩ := hCatch.moments h
      have hAdvances := hR.advance h
      rw [hDone] at hAdvances
      generalize hDone' : Machine.advance names c₁ = a at hAdvances
      cases hAdvances with
      | done hOutcome =>
          exact ⟨_, (ends_iff_of_reaches hReaches).2 (.done hDone'), hOutcome, h.identity⟩
  | @step d d' r' hStep _ ih =>
      obtain ⟨c₁, hReaches, h⟩ := hCatch.moments h
      have hAdvances := hR.advance h
      rw [show Machine.advance names' d = .next d' from hStep] at hAdvances
      generalize hStep' : Machine.advance names c₁ = a at hAdvances
      cases hAdvances with
      | next hNext =>
          obtain ⟨r, hEnds', hResults⟩ := ih hNext
          exact ⟨r, (ends_iff_of_reaches hReaches).2 (.step hStep' hEnds'), hResults⟩

theorem observe_eq {o o' : Outcome EvalError} (h : o.Relates R.value o') :
    o.observe = o'.observe := by
  cases h with
  | value hValue => cases hR.resembles hValue <;> rfl
  | _ => rfl

/-- Of the two runs the same is seen in the end, and if one of them ends, so does the other. -/
theorem eventually_iff (hCatch : R.CatchesUp names names') (h : R.Moments R.place c d)
    (seen : Observation EvalError) :
    Eventually (fun limit => (Machine.run names limit c).1) seen ↔
      Eventually (fun limit => (Machine.run names' limit d).1) seen := by
  rw [eventually_run_iff, eventually_run_iff]
  constructor
  · rintro ⟨r, hEnds, rfl⟩
    obtain ⟨r', hEnds', hResults⟩ := hR.ends hCatch h hEnds
    exact ⟨r', hEnds', (hR.observe_eq hResults.outcome).symm⟩
  · rintro ⟨r', hEnds', rfl⟩
    obtain ⟨r, hEnds, hResults⟩ := hR.ends_back hCatch h hEnds'
    exact ⟨r, hEnds, hR.observe_eq hResults.outcome⟩

end Coupling.Sound

end Machine

end ArrowLisp
