import ArrowLisp.Proofs.Machine.Safety
import ArrowLisp.Proofs.Natural.Refinement

/-!
Evaluation by the machine and by the rules agree on all good values. Good values mean something, so
both directions of the refinement apply; what two arenas have in common is only the tree that their
nodes stand for, and this is enough.
-/

namespace ArrowLisp

open Natural

theorem ResultMeans.unique {r : Except EvalError Value} {d d' : Except EvalError (Datum Name)}
    (h : ResultMeans r d) (h' : ResultMeans r d') : d = d' := by
  cases h with
  | ok hv =>
      cases h' with
      | ok hv' => rw [hv.unique hv']
  | error e => cases h'; rfl

/-- An environment means a scope if everything that it binds means something. -/
theorem Environment.exists_means {env : Environment Value}
    (h : ∀ v ∈ env.values, ∃ d, v.Means d) : ∃ ρ, env.Means ρ := by
  have hEach : ∀ x, ∃ d, Option.Rel Value.Means (env.lookup x) d := by
    intro x
    cases hLookup : env.lookup x with
    | none => exact ⟨none, .none⟩
    | some v =>
        obtain ⟨d, hd⟩ := h v (mem_values_of_lookup hLookup)
        exact ⟨some d, .some hd⟩
  choose ρ hρ using hEach
  exact ⟨ρ, hρ⟩

theorem Value.Good.exists_means {v : Value} (h : v.Good) : ∃ d, v.Means d := by
  induction h with
  | number x => exact ⟨_, .number x⟩
  | bool b => exact ⟨_, .bool b⟩
  | string s => exact ⟨_, .string s⟩
  | primitive op => exact ⟨_, .primitive op⟩
  | closure hHere _ ih =>
      obtain ⟨e, hTree⟩ := hHere.wellFormed.exists_tree? hHere.body_lt
      obtain ⟨ρ, hEnv⟩ := Environment.exists_means ih
      exact ⟨_, .of_env hTree hEnv⟩

theorem Environment.Good.exists_means {env : Environment Value} (h : env.Good) :
    ∃ ρ, env.Means ρ :=
  Environment.exists_means fun v hv => Value.Good.exists_means (h v hv)

namespace Machine

variable {names : Interner}

/-- What a job returns, if it returns, is derivable for what the job means. -/
theorem exists_derives_of_returns {job : Job} {task : Natural.Job Name} (hMeans : job.Means task)
    {n next : Nat} {r : Except EvalError Value} (h : Returns names (job.start [] n) r next) :
    ∃ d, ResultMeans r d ∧ Natural.Derives names.lookup task n d next := by
  obtain ⟨limit, hRun⟩ := h
  obtain ⟨d, m, hDerives, hContinues⟩ :=
    sound names limit hMeans (Outcome.ofExcept_ne_unfinished r) hRun
  cases hContinues with
  | @ok v d limit' m hLess hv hRest =>
      -- Nobody waits for the value, so the run ends with it.
      obtain ⟨hOutcome, rfl⟩ := eq_of_run_of_done hRest (Outcome.ofExcept_ne_unfinished r) rfl
      cases r with
      | ok w => cases hOutcome; exact ⟨_, .ok hv, hDerives⟩
      | error e => cases hOutcome
  | @error e hError =>
      cases r with
      | ok w => cases hError
      | error e' => cases hError; exact ⟨_, .error e, hDerives⟩

/-- What is derivable for the meaning of a job is what the job returns. -/
theorem derives_iff_returns {job : Job} {task : Natural.Job Name} (hMeans : job.Means task)
    {n next : Nat} {d : Except EvalError (Datum Name)} :
    Natural.Derives names.lookup task n d next ↔
      ∃ r, ResultMeans r d ∧ Returns names (job.start [] n) r next := by
  constructor
  · intro h
    obtain ⟨r, hr, hYields⟩ := exists_yields_of_derives h job hMeans
    exact ⟨r, hr, (hYields []).returns⟩
  · rintro ⟨r, hr, hReturns⟩
    obtain ⟨d', hr', hDerives⟩ := exists_derives_of_returns hMeans hReturns
    rwa [hr.unique hr']

/-- The evaluation of a node comes to a value or an error. -/
def Evaluates (names : Interner) (arena : Arena) (id : NodeId) (env : Environment Value)
    (next : Nat) (r : Except EvalError Value) (next' : Nat) : Prop :=
  ∃ limit, eval limit names arena id env next = (.ofExcept r, next')

/-- Evaluation returns what the rules derive for the tree that the node stands for, and so it
returns the same in every arena in which a node stands for this tree, whatever nodes are shared
there and in whichever arenas the bodies of closures live. -/
theorem evaluates_iff_derives {arena : Arena} {id : NodeId} {env : Environment Value}
    (hArena : arena.WellFormed) (hId : id.index < arena.size) (hEnv : env.Good)
    (names : Interner) (next : Nat) :
    ∃ e ρ, arena.tree? id = some e ∧ env.Means ρ ∧
      (∀ d next', Natural.Derives names.lookup (.eval ρ e) next d next' ↔
        ∃ r, ResultMeans r d ∧ Evaluates names arena id env next r next') ∧
      (∀ r next', Evaluates names arena id env next r next' → ∃ d, ResultMeans r d) ∧
      ∀ (arena' : Arena) (id' : NodeId) (env' : Environment Value),
        arena'.tree? id' = some e → env'.Means ρ → ∀ d next',
          (∃ r, ResultMeans r d ∧ Evaluates names arena id env next r next') ↔
            ∃ r, ResultMeans r d ∧ Evaluates names arena' id' env' next r next' := by
  obtain ⟨e, hTree⟩ := hArena.exists_tree? hId
  obtain ⟨ρ, hMeans⟩ := Environment.Good.exists_means hEnv
  have hJob : (Job.eval ⟨arena, env⟩ id).Means (.eval ρ e) := .eval hMeans hTree
  refine ⟨e, ρ, hTree, hMeans, fun d next' => derives_iff_returns hJob, fun r next' hReturns => ?_,
    fun arena' id' env' hTree' hMeans' d next' => ?_⟩
  · obtain ⟨d, hd, -⟩ := exists_derives_of_returns hJob hReturns
    exact ⟨d, hd⟩
  · have hJob' : (Job.eval ⟨arena', env'⟩ id').Means (.eval ρ e) := .eval hMeans' hTree'
    exact (derives_iff_returns hJob).symm.trans (derives_iff_returns hJob')

/-- A node may be the condition and both branches of one conditional; evaluation is that of the tree
in which the three are apart. -/
theorem evaluates_shared_conditional :
    ∃ r, ResultMeans r (.ok (.bool true)) ∧
      Evaluates .empty ⟨#[.bool true, .bool true, .bool true, .conditional ⟨0⟩ ⟨1⟩ ⟨2⟩], #[], #[]⟩
        ⟨3⟩ .empty 0 r 0 := by
  have hArena : Arena.WellFormed ⟨#[.bool true, .conditional ⟨0⟩ ⟨0⟩ ⟨0⟩], #[], #[]⟩ := by
    constructor <;> rintro ⟨_ | _ | i⟩ n hNode <;> simp [Arena.node?] at hNode <;> subst hNode <;>
      simp [Arena.children, Arena.ListsWithin]
  obtain ⟨e, ρ, hTree, hMeans, -, -, hSame⟩ :=
    evaluates_iff_derives hArena (show (⟨1⟩ : NodeId).index < 2 by decide)
      Environment.Hereditarily.empty .empty 0
  cases hTree
  exact (hSame _ ⟨3⟩ .empty rfl hMeans _ _).1 ⟨_, .ok (.bool true), 5, rfl⟩

end Machine

end ArrowLisp
