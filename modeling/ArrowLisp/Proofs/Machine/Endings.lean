import ArrowLisp.Proofs.Arena.WellFormed
import ArrowLisp.Proofs.Machine.Jobs
import ArrowLisp.Proofs.Observation

/-!
How runs end. A run that ends does so in one way only, and its first steps do not change how it
ends. The evaluation of a part goes as if nobody waited for the part, and where it ends with a
value, those that wait go on.
-/

namespace ArrowLisp.Machine

variable {names : Interner} {c d : Configuration} {r r' : Outcome EvalError × Nat}

/-- The run from a configuration ends, with an outcome and with the identity that no closure has
then. -/
inductive Ends (names : Interner) : Configuration → Outcome EvalError × Nat → Prop where
  | done {c : Configuration} {o : Outcome EvalError} (h : advance names c = .done o) :
      Ends names c (o, c.nextIdentity)
  | step {c d : Configuration} {r : Outcome EvalError × Nat} (hStep : Steps names c d)
      (h : Ends names d r) : Ends names c r

theorem ends_iff_of_steps (hStep : Steps names c d) : Ends names c r ↔ Ends names d r := by
  constructor
  · intro h
    cases h with
    | done hDone => cases hDone.symm.trans hStep
    | step hOther h =>
        cases hOther.symm.trans hStep
        exact h
  · exact .step hStep

theorem ends_iff_of_done {o : Outcome EvalError} (hDone : advance names c = .done o) :
    Ends names c r ↔ r = (o, c.nextIdentity) := by
  constructor
  · intro h
    cases h with
    | done hOther =>
        cases hOther.symm.trans hDone
        rfl
    | step hStep => cases hDone.symm.trans hStep
  · rintro rfl
    exact .done hDone

theorem ends_iff_of_reaches (h : Reaches names c d) : Ends names c r ↔ Ends names d r := by
  induction h using Relation.ReflTransGen.head_induction_on with
  | refl => rfl
  | head hStep _ ih => exact (ends_iff_of_steps hStep).trans ih

theorem Ends.unique (h : Ends names c r) (h' : Ends names c r') : r = r' := by
  induction h with
  | done hDone => exact ((ends_iff_of_done hDone).1 h').symm
  | step hStep _ ih => exact ih ((ends_iff_of_steps hStep).1 h')

theorem Ends.ne_unfinished (h : Ends names c r) : r.1 ≠ .unfinished := by
  induction h with
  | @done c o hDone =>
      rintro rfl
      exact advance_ne_unfinished c hDone
  | step _ _ ih => exact ih

/-- A run that ends does so within all limits from some limit on. -/
theorem Ends.exists_limit (h : Ends names c r) :
    ∃ limit, ∀ more, run names (limit + more) c = r := by
  induction h with
  | done hDone => exact ⟨1, fun more => by rw [Nat.add_comm, run_succ_of_done hDone]⟩
  | step hStep _ ih =>
      obtain ⟨limit, hRun⟩ := ih
      refine ⟨limit + 1, fun more => ?_⟩
      rw [Nat.add_right_comm, run_succ_of_steps hStep, hRun]

theorem ends_run {limit : Nat} (h : (run names limit c).1 ≠ .unfinished) :
    Ends names c (run names limit c) := by
  induction limit generalizing c with
  | zero => exact absurd rfl h
  | succ limit ih =>
      cases hStep : advance names c with
      | next d =>
          rw [run_succ_of_steps hStep] at h ⊢
          exact .step hStep (ih h)
      | done o =>
          rw [run_succ_of_done hStep]
          exact .done hStep

/-- What is seen of a run in the end is what is seen of the outcome with which it ends. -/
theorem eventually_run_iff {seen : Observation EvalError} :
    Eventually (fun limit => (run names limit c).1) seen ↔
      ∃ r, Ends names c r ∧ r.1.observe = seen := by
  constructor
  · rintro ⟨hSeen, limit, rfl⟩
    exact ⟨_, ends_run (mt Outcome.observe_eq_unfinished_iff.2 hSeen), rfl⟩
  · rintro ⟨r, hEnds, rfl⟩
    obtain ⟨limit, hRun⟩ := hEnds.exists_limit
    exact ⟨mt Outcome.observe_eq_unfinished_iff.1 hEnds.ne_unfinished, limit, by rw [← hRun 0]; rfl⟩

/-- Two runs in turn. The first one comes to a value, with which the second one starts, or it fails
and the second one does not start. -/
inductive EndsInTurn (first : Outcome EvalError × Nat → Prop)
    (second : Value → Nat → Outcome EvalError × Nat → Prop) : Outcome EvalError × Nat → Prop where
  | value {v : Value} {n : Nat} {r : Outcome EvalError × Nat} (hFirst : first (.value v, n))
      (hSecond : second v n r) : EndsInTurn first second r
  | fails {r : Outcome EvalError × Nat} (hFirst : first r) (hFails : ∀ v, r.1 ≠ .value v) :
      EndsInTurn first second r

/-- If it is known to which value the first run comes, only the second one is left. -/
theorem endsInTurn_iff_of_value {first : Outcome EvalError × Nat → Prop}
    {second : Value → Nat → Outcome EvalError × Nat → Prop} {v : Value} {n : Nat}
    (hFirst : ∀ r, first r ↔ r = (.value v, n)) : EndsInTurn first second r ↔ second v n r := by
  constructor
  · intro h
    cases h with
    | value hValue hSecond =>
        cases (hFirst _).1 hValue
        exact hSecond
    | fails h hFails =>
        cases (hFirst _).1 h
        exact absurd rfl (hFails v)
  · exact .value ((hFirst _).2 rfl)

section Under

/-- The same moment with more that waits, after all that waits already. -/
def Configuration.under (tail : List Awaiting) (c : Configuration) : Configuration :=
  { c with waiting := c.waiting ++ tail }

def Advance.under (tail : List Awaiting) : Advance → Advance
  | .next c => .next (c.under tail)
  | .done o => .done o

variable (tail : List Awaiting)

theorem evalNode_under (scope : Scope) (waiting : List Awaiting) (n : Nat) (node : Node) :
    evalNode names scope (waiting ++ tail) n node =
      (evalNode names scope waiting n node).under tail := by
  cases node with
  | identifier x => rw [evalNode, evalNode]; split <;> rfl
  | lambda span body => rw [evalNode, evalNode]; split <;> rfl
  | _ => rfl

theorem applyValue_under (callee : Value) (args : List Value) (waiting : List Awaiting) (n : Nat) :
    applyValue callee args (waiting ++ tail) n = (applyValue callee args waiting n).under tail := by
  cases callee with
  | primitive op => rw [applyValue, applyValue]; split <;> rfl
  | closure c => rw [applyValue, applyValue]; split <;> rfl
  | _ => rfl

theorem continueArgs_under (scope : Scope) (callee : Value) (evaluated : List Value)
    (args : List NodeId) (waiting : List Awaiting) (n : Nat) :
    continueArgs scope callee evaluated args (waiting ++ tail) n =
      (continueArgs scope callee evaluated args waiting n).under tail := by
  cases args <;> rfl

theorem resume_under (v : Value) (waiting : List Awaiting) (n : Nat) (awaiting : Awaiting) :
    resume v (waiting ++ tail) n awaiting = (resume v waiting n awaiting).under tail := by
  cases awaiting with
  | condition scope t e =>
      cases v with
      | bool b => cases b <;> rfl
      | _ => rfl
  | callee scope span =>
      rw [resume, resume]
      split
      · split
        · rw [continueArgs_under, Advance.under]
        · rfl
      · rfl
  | arg scope callee evaluated args =>
      rw [resume, resume, continueArgs_under, Advance.under]

/-- A step does not depend on who waits, unless it hands over a value for which nobody has waited
before. -/
theorem advance_under (h : ∀ v n, c ≠ ⟨.ret v, [], n⟩) :
    advance names (c.under tail) = (advance names c).under tail := by
  obtain ⟨control, waiting, n⟩ := c
  cases control with
  | eval scope id =>
      simp only [advance, Configuration.under]
      split
      · exact evalNode_under tail scope waiting n _
      · rfl
  | call callee args => exact applyValue_under tail callee args waiting n
  | ret v =>
      cases waiting with
      | nil => exact absurd rfl (h v n)
      | cons awaiting waiting => exact resume_under tail v waiting n awaiting

/-- A step that does not end the run is taken whoever waits. -/
theorem Steps.under (h : Steps names c d) : Steps names (c.under tail) (d.under tail) := by
  have hOther : ∀ v n, c ≠ ⟨.ret v, [], n⟩ := by
    rintro v n rfl
    cases h
  rw [Steps, advance_under tail hOther, show advance names c = .next d from h, Advance.under]

variable {tail}

/-- Others that wait get the value with which a run would have ended without them. -/
theorem Ends.reaches_under {v : Value} {n : Nat} (h : Ends names c (.value v, n)) :
    Reaches names (c.under tail) ⟨.ret v, tail, n⟩ := by
  generalize hResult : (Outcome.value v, n) = r at h
  induction h with
  | done hDone =>
      cases hResult
      obtain ⟨n, rfl⟩ := eq_ret_of_done hDone
      exact .refl
  | step hStep _ ih => exact .head (hStep.under tail) (ih hResult)

/-- A run that fails does so whoever waits. -/
theorem Ends.under (h : Ends names c r) (hFails : ∀ v, r.1 ≠ .value v) :
    Ends names (c.under tail) r := by
  induction h with
  | @done c o hDone =>
      have hOther : ∀ v n, c ≠ ⟨.ret v, [], n⟩ := by
        rintro v n rfl
        cases hDone
        exact hFails v rfl
      exact .done (c := c.under tail) (by rw [advance_under tail hOther, hDone, Advance.under])
  | step hStep _ ih => exact .step (hStep.under tail) (ih hFails)

/-- A run that ends under others that wait would end without them. -/
theorem Ends.of_under (h : Ends names (c.under tail) r) : ∃ r', Ends names c r' := by
  generalize hUnder : c.under tail = e at h
  induction h generalizing c with
  | done hDone =>
      subst hUnder
      cases hStep : advance names c with
      | done o => exact ⟨_, .done hStep⟩
      | next d => cases hDone.symm.trans (Steps.under tail hStep)
  | step hUnderStep _ ih =>
      subst hUnder
      cases hStep : advance names c with
      | done o => exact ⟨_, .done hStep⟩
      | next d =>
          cases hUnderStep.symm.trans (Steps.under tail hStep)
          obtain ⟨r', hEnds⟩ := ih rfl
          exact ⟨r', .step hStep hEnds⟩

/-- A run under others that wait goes as it would without them, and then the others go on. -/
theorem ends_under_iff : Ends names (c.under tail) r ↔
    EndsInTurn (Ends names c) (fun v n => Ends names ⟨.ret v, tail, n⟩) r := by
  constructor
  · intro h
    obtain ⟨⟨o, n⟩, hEnds⟩ := h.of_under
    by_cases hValue : ∃ v, o = .value v
    · obtain ⟨v, rfl⟩ := hValue
      exact .value hEnds ((ends_iff_of_reaches hEnds.reaches_under).1 h)
    · have hFails : ∀ v, o ≠ .value v := fun v hSame => hValue ⟨v, hSame⟩
      rw [h.unique (hEnds.under hFails)]
      exact .fails hEnds hFails
  · intro h
    cases h with
    | value hFirst hSecond => exact (ends_iff_of_reaches hFirst.reaches_under).2 hSecond
    | fails hFirst hFails => exact hFirst.under hFails

end Under

/-- A lambda with one parameter that is applied where it stands: the argument is evaluated, with the
identity that is left after the closure of the lambda, and then the body under the new binding. -/
theorem ends_apply_lambda_iff {a : Arena} {id : NodeId} {x : Name} {body arg : Expr Name}
    (hTree : a.tree? id = some (.apply (.lambda [x] body) [arg])) :
    ∃ argId bodyId, a.tree? argId = some arg ∧ a.tree? bodyId = some body ∧
      ∀ (names : Interner) (env : Environment Value) (n : Nat) (r : Outcome EvalError × Nat),
        Ends names ⟨.eval ⟨a, env⟩ id, [], n⟩ r ↔
          EndsInTurn (Ends names ⟨.eval ⟨a, env⟩ argId, [], n + 1⟩)
            (fun v m => Ends names ⟨.eval ⟨a, env.bind x v⟩ bodyId, [], m⟩) r := by
  obtain ⟨f, span, ids, hNode, hCallee, hIds, hArgs⟩ := Arena.exists_apply_of_tree? hTree
  obtain ⟨argId, _, hArg, ⟨⟩, rfl⟩ := List.forall₂_cons_right_iff.1 hArgs
  obtain ⟨paramSpan, bodyId, hLambda, hParams, hBody⟩ := Arena.exists_lambda_of_tree? hCallee
  refine ⟨argId, bodyId, hArg, hBody, fun names env n r => ?_⟩
  let closure : Value := .closure ⟨n, [x], bodyId, env, a⟩
  have hClosure : Steps names ⟨.eval ⟨a, env⟩ f, [.callee ⟨a, env⟩ span], n⟩
      ⟨.ret closure, [.callee ⟨a, env⟩ span], n + 1⟩ :=
    advance_eval hLambda (by rw [evalNode, hParams])
  have hResume : resume closure [] (n + 1) (.callee ⟨a, env⟩ span) =
      .next ((Job.evalArgs ⟨a, env⟩ closure [] [argId]).start [] (n + 1)) :=
    resume_callee rfl hIds [] (n + 1)
  have hArgument : Reaches names ⟨.eval ⟨a, env⟩ id, [], n⟩
      (Configuration.under [.arg ⟨a, env⟩ closure [] []] ⟨.eval ⟨a, env⟩ argId, [], n + 1⟩) :=
    .head (advance_eval hNode rfl) (.head hClosure (.single hResume))
  have hApply : ∀ v m, Reaches names
      ⟨.ret v, [.arg ⟨a, env⟩ closure [] []], m⟩
      ⟨.eval ⟨a, env.bind x v⟩ bodyId, [], m⟩ := fun v m => .head rfl (.single rfl)
  have hBodies : (fun v m => Ends names ⟨.ret v, [.arg ⟨a, env⟩ closure [] []], m⟩) =
      fun v m => Ends names ⟨.eval ⟨a, env.bind x v⟩ bodyId, [], m⟩ := by
    funext v m r
    exact propext (ends_iff_of_reaches (hApply v m))
  rw [ends_iff_of_reaches hArgument, ends_under_iff, hBodies]

end ArrowLisp.Machine
