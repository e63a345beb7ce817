import ArrowLisp.Proofs.Machine.Endings

/-!
Errors are final. Whatever a run evaluates or applies on its way could also be done on its own, with
nobody who waits for the result. If it fails on its own, then the whole run fails with it, with the
same error and in the same moment; so in a run that comes to a value everything on the way has come
to a value.
-/

namespace ArrowLisp.Machine

variable {names : Interner} {c d f : Configuration} {e : EvalError}

/-- What is being done, as if nobody waited for it. -/
def Configuration.alone (c : Configuration) : Configuration := { c with waiting := [] }

theorem Configuration.alone_under (c : Configuration) : c.alone.under c.waiting = c := rfl

theorem rightUnique_steps : Relator.RightUnique (Steps names) :=
  fun _ _ _ h h' => Advance.next.inj (h.symm.trans h')

/-- No moment of a run comes after the one in which the run ends. -/
theorem reaches_last {o : Outcome EvalError} (hLast : Reaches names c f)
    (hDone : advance names f = .done o) (h : Reaches names c d) : Reaches names d f := by
  rcases Relation.ReflTransGen.total_of_right_unique rightUnique_steps h hLast with h | h
  · exact h
  · rcases h.cases_head with rfl | ⟨_, hStep, -⟩
    · exact .refl
    · cases hDone.symm.trans hStep

theorem reaches_under (tail : List Awaiting) (h : Reaches names c d) :
    Reaches names (c.under tail) (d.under tail) :=
  h.lift (Configuration.under tail) fun _ _ hStep => hStep.under tail

/-- A step that fails does so whoever waits. -/
theorem advance_under_of_error (tail : List Awaiting) (h : advance names c = .done (.error e)) :
    advance names (c.under tail) = .done (.error e) := by
  have hOther : ∀ v n, c ≠ ⟨.ret v, [], n⟩ := by
    rintro v n rfl
    cases h
  rw [advance_under tail hOther, h, Advance.under]

/-- If what is being done comes to a value when all goes on, then it does so on its own. -/
theorem exists_value_alone {v : Value} {m : Nat} (h : Ends names c (.value v, m)) :
    ∃ w k, Ends names c.alone (.value w, k) := by
  rw [← c.alone_under] at h
  cases ends_under_iff.1 h with
  | value hFirst _ => exact ⟨_, _, hFirst⟩
  | fails _ hFails => exact absurd rfl (hFails v)

/-- Errors are final. Let `c` be a moment of an evaluation, for example one in which another node is
evaluated or a value is applied, at whatever depth. If what is done at `c` ends with an error, then
the whole evaluation ends with this error, and no moment of it comes after the one of the error,
neither one in which a node is evaluated nor one in which a primitive is applied. If the whole
evaluation ends with a value, then so does what is done at `c`. -/
theorem errors_are_final (names : Interner) (arena : Arena) (id : NodeId) (env : Environment Value)
    (next : Nat) {c : Configuration}
    (hMoment : Reaches names ⟨.eval ⟨arena, env⟩ id, [], next⟩ c) :
    (∀ limit e m, run names limit c.alone = (.error e, m) →
      (∃ steps, ∀ more, eval (steps + more) names arena id env next = (.error e, m)) ∧
      ∃ last, Reaches names c.alone last ∧ advance names last = .done (.error e) ∧
        ∀ d, Reaches names ⟨.eval ⟨arena, env⟩ id, [], next⟩ d →
          Reaches names d (last.under c.waiting)) ∧
    ∀ limit v m, eval limit names arena id env next = (.value v, m) →
      ∃ steps w k, run names steps c.alone = (.value w, k) := by
  constructor
  · intro limit e m hRun
    obtain ⟨last, hReaches, hDone, rfl⟩ := exists_reaches_of_run hRun (by simp)
    have hAlone : Ends names c.alone (.error e, last.nextIdentity) :=
      (ends_iff_of_reaches hReaches).2 (.done hDone)
    have hUnder : Ends names (c.alone.under c.waiting) (.error e, last.nextIdentity) :=
      hAlone.under (by simp)
    rw [c.alone_under] at hUnder
    refine ⟨((ends_iff_of_reaches hMoment).2 hUnder).exists_limit, last, hReaches, hDone, ?_⟩
    intro d hd
    have hLast := hMoment.trans (reaches_under c.waiting hReaches)
    exact reaches_last hLast (advance_under_of_error c.waiting hDone) hd
  · intro limit v m hRun
    have hWhole : Ends names ⟨.eval ⟨arena, env⟩ id, [], next⟩ (.value v, m) := by
      rw [← hRun]
      exact ends_run (by rw [show run names limit _ = _ from hRun]; simp)
    obtain ⟨w, k, hAlone⟩ := exists_value_alone ((ends_iff_of_reaches hMoment).1 hWhole)
    obtain ⟨steps, hSteps⟩ := hAlone.exists_limit
    exact ⟨steps, w, k, hSteps 0⟩

/-- A call that fails while a conditional waits for its value. -/
theorem errors_are_final_condition :
    ∃ scope steps, Reaches .empty ⟨.eval scope ⟨3⟩, [], 0⟩
        ⟨.eval scope ⟨1⟩, [.condition scope ⟨2⟩ ⟨2⟩], 0⟩ ∧
      eval 4 .empty scope.arena ⟨1⟩ scope.env 0 = (.error (.userError "error called"), 0) ∧
      eval steps .empty scope.arena ⟨3⟩ scope.env 0 =
        (.error (.userError "error called"), 0) := by
  let scope : Scope := ⟨⟨#[.identifier ⟨0⟩, .apply ⟨0⟩ ⟨0, 0⟩, .bool true,
    .conditional ⟨1⟩ ⟨2⟩ ⟨2⟩], #[], #[]⟩, .bind .empty ⟨0⟩ (.primitive .error)⟩
  have hMoment : Reaches .empty ⟨.eval scope ⟨3⟩, [], 0⟩
      ⟨.eval scope ⟨1⟩, [.condition scope ⟨2⟩ ⟨2⟩], 0⟩ := .single rfl
  have hFails : eval 4 .empty scope.arena ⟨1⟩ scope.env 0 =
      (.error (.userError "error called"), 0) := rfl
  have hFinal := errors_are_final .empty scope.arena ⟨3⟩ scope.env 0 hMoment
  obtain ⟨steps, hSteps⟩ := (hFinal.1 4 _ _ hFails).1
  exact ⟨scope, steps, hMoment, hFails, hSteps 0⟩

end ArrowLisp.Machine
