import ArrowLisp.Machine
import Mathlib.Logic.Relation

/-!
Runs without step limits. `Reaches` is any number of steps of the machine, `Returns` a whole run
that comes to a value or an error, and `Delivers` the part of a run up to the moment at which a
value is handed to those that wait for it.
-/

namespace ArrowLisp

/-- The outcome of a run that came to a value or an error. -/
def Outcome.ofExcept {ε : Type} : Except ε Value → Outcome ε
  | .ok v => .value v
  | .error e => .error e

theorem Outcome.ofExcept_ne_unfinished {ε : Type} (r : Except ε Value) :
    ofExcept r ≠ .unfinished := by
  cases r <;> simp [ofExcept]

namespace Machine

variable {names : Interner}

/-- One step leads from one configuration to another. -/
def Steps (names : Interner) (c d : Configuration) : Prop := advance names c = .next d

/-- Any number of steps, none included. -/
abbrev Reaches (names : Interner) : Configuration → Configuration → Prop :=
  Relation.ReflTransGen (Steps names)

theorem run_succ_of_steps {c d : Configuration} (h : Steps names c d) (limit : Nat) :
    run names (limit + 1) c = run names limit d := by
  simp only [run, show advance names c = .next d from h]

theorem run_succ_of_done {c : Configuration} {o : Outcome EvalError}
    (h : advance names c = .done o) (limit : Nat) :
    run names (limit + 1) c = (o, c.nextIdentity) := by
  simp only [run, h]

/-- The steps on the way to a configuration can be taken off a run. -/
theorem Reaches.exists_run {c d : Configuration} (h : Reaches names c d) :
    ∃ steps, ∀ limit, run names (limit + steps) c = run names limit d := by
  induction h using Relation.ReflTransGen.head_induction_on with
  | refl => exact ⟨0, fun _ => rfl⟩
  | head hFirst _ ih =>
      obtain ⟨steps, hRun⟩ := ih
      refine ⟨steps + 1, fun limit => ?_⟩
      rw [← Nat.add_assoc, run_succ_of_steps hFirst, hRun]

/-- A run that is not cut off reaches the configuration in which it ends. -/
theorem exists_reaches_of_run {limit : Nat} {c : Configuration} {o : Outcome EvalError}
    {next : Nat} (h : run names limit c = (o, next)) (hEnds : o ≠ .unfinished) :
    ∃ d, Reaches names c d ∧ advance names d = .done o ∧ d.nextIdentity = next := by
  induction limit generalizing c with
  | zero => exact absurd (Prod.mk.inj h).1.symm hEnds
  | succ limit ih =>
      cases hStep : advance names c with
      | next d =>
          rw [run_succ_of_steps hStep] at h
          obtain ⟨last, hReaches, hDone⟩ := ih h
          exact ⟨last, .head hStep hReaches, hDone⟩
      | done o' =>
          rw [run_succ_of_done hStep] at h
          cases h
          exact ⟨c, .refl, hStep, rfl⟩

/-- A run that is not cut off goes on after its first step with fewer steps left. -/
theorem exists_run_of_next {limit : Nat} {c d : Configuration} {o : Outcome EvalError} {next : Nat}
    (h : run names limit c = (o, next)) (hEnds : o ≠ .unfinished)
    (hStep : advance names c = .next d) : ∃ limit' < limit, run names limit' d = (o, next) := by
  cases limit with
  | zero => exact absurd (Prod.mk.inj h).1.symm hEnds
  | succ limit => exact ⟨limit, Nat.lt_succ_self limit, run_succ_of_steps hStep limit ▸ h⟩

theorem eq_of_run_of_done {limit : Nat} {c : Configuration} {o o' : Outcome EvalError} {next : Nat}
    (h : run names limit c = (o, next)) (hEnds : o ≠ .unfinished)
    (hStep : advance names c = .done o') : o = o' ∧ next = c.nextIdentity := by
  cases limit with
  | zero => exact absurd (Prod.mk.inj h).1.symm hEnds
  | succ limit =>
      rw [run_succ_of_done hStep] at h
      exact ⟨(Prod.mk.inj h).1.symm, (Prod.mk.inj h).2.symm⟩

/-- A step that ends a run hands over a value for which nothing waits, or it fails. -/
theorem done_cases {c : Configuration} {o : Outcome EvalError} (h : advance names c = .done o) :
    (∃ v n, o = .value v ∧ c = ⟨.ret v, [], n⟩) ∨ (∃ e, o = .error e) ∨ o = .dangling := by
  obtain ⟨control, waiting, n⟩ := c
  cases control with
  | eval scope id =>
      simp only [advance] at h
      split at h
      · next node hNode => cases node <;> grind [evalNode]
      · cases h; exact .inr (.inr rfl)
  | call callee args => cases callee <;> grind [advance, applyValue]
  | ret w =>
      cases waiting with
      | nil => cases h; exact .inl ⟨w, n, rfl, rfl⟩
      | cons awaiting waiting =>
          cases awaiting with
          | condition scope t e =>
              cases w with
              | bool b => cases b <;> cases h
              | _ => cases h; exact .inr (.inl ⟨_, rfl⟩)
          | callee scope span => grind [advance, resume]
          | arg scope callee evaluated args => cases h

/-- A run comes to a value only where nothing waits for it. -/
theorem eq_ret_of_done {c : Configuration} {v : Value} (h : advance names c = .done (.value v)) :
    ∃ n, c = ⟨.ret v, [], n⟩ := by
  rcases done_cases h with ⟨_, n, hValue, rfl⟩ | ⟨e, hError⟩ | hDangling
  · cases hValue
    exact ⟨n, rfl⟩
  · cases hError
  · cases hDangling

/-- Only the limit cuts a run off. -/
theorem advance_ne_unfinished (c : Configuration) : advance names c ≠ .done .unfinished := by
  intro h
  rcases done_cases h with ⟨_, _, hValue, -⟩ | ⟨e, hError⟩ | hDangling
  · cases hValue
  · cases hError
  · cases hDangling

/-- A run from a configuration comes to a value or an error, and `next` is then the identity that
no closure has yet. -/
def Returns (names : Interner) (c : Configuration) (r : Except EvalError Value) (next : Nat) :
    Prop :=
  ∃ limit, run names limit c = (.ofExcept r, next)

theorem returns_of_reaches {c d : Configuration} {r : Except EvalError Value}
    (h : Reaches names c d) (hDone : advance names d = .done (.ofExcept r)) :
    Returns names c r d.nextIdentity := by
  obtain ⟨steps, hRun⟩ := h.exists_run
  exact ⟨1 + steps, by rw [hRun, run_succ_of_done hDone]⟩

/-- A run hands `waiting` the value that it was started for, or it ends with an error before. -/
inductive Delivers (names : Interner) (c : Configuration) (waiting : List Awaiting) :
    Except EvalError Value → Nat → Prop where
  | value {v : Value} {next : Nat} (h : Reaches names c ⟨.ret v, waiting, next⟩) :
      Delivers names c waiting (.ok v) next
  | error {d : Configuration} {e : EvalError} (h : Reaches names c d)
      (hDone : advance names d = .done (.error e)) :
      Delivers names c waiting (.error e) d.nextIdentity

theorem Delivers.of_reaches {c d : Configuration} {waiting : List Awaiting}
    {r : Except EvalError Value} {next : Nat} (hReaches : Reaches names c d)
    (h : Delivers names d waiting r next) : Delivers names c waiting r next := by
  cases h with
  | value h => exact .value (hReaches.trans h)
  | error h hDone => exact .error (hReaches.trans h) hDone

theorem Delivers.of_steps {c d : Configuration} {waiting : List Awaiting}
    {r : Except EvalError Value} {next : Nat} (hStep : Steps names c d)
    (h : Delivers names d waiting r next) : Delivers names c waiting r next :=
  .of_reaches (.single hStep) h

/-- What has been delivered is used, and the run goes on. -/
theorem Delivers.resume {c d : Configuration} {awaiting : Awaiting} {waiting : List Awaiting}
    {v : Value} {r : Except EvalError Value} {next next' : Nat}
    (h : Delivers names c (awaiting :: waiting) (.ok v) next)
    (hResume : Machine.resume v waiting next awaiting = .next d)
    (hRest : Delivers names d waiting r next') : Delivers names c waiting r next' := by
  cases h with
  | value h => exact .of_reaches (h.tail hResume) hRest

/-- What has been delivered is refused where it is used. -/
theorem Delivers.refuse {c : Configuration} {awaiting : Awaiting} {waiting : List Awaiting}
    {v : Value} {e : EvalError} {next : Nat}
    (h : Delivers names c (awaiting :: waiting) (.ok v) next)
    (hResume : Machine.resume v waiting next awaiting = .done (.error e)) :
    Delivers names c waiting (.error e) next := by
  cases h with
  | value h => exact .error h hResume

/-- An error does not ask who waits. -/
theorem Delivers.fail {c : Configuration} {waiting waiting' : List Awaiting} {e : EvalError}
    {next : Nat} (h : Delivers names c waiting (.error e) next) :
    Delivers names c waiting' (.error e) next := by
  cases h with
  | error h hDone => exact .error h hDone

/-- What is delivered to nobody is what the run returns. -/
theorem Delivers.returns {c : Configuration} {r : Except EvalError Value} {next : Nat}
    (h : Delivers names c [] r next) : Returns names c r next := by
  cases h with
  | value h => exact returns_of_reaches h rfl
  | error h hDone => exact returns_of_reaches h hDone

end Machine

end ArrowLisp
