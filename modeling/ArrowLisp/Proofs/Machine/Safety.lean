import ArrowLisp.Proofs.Arena.WellFormed
import ArrowLisp.Proofs.Machine.Invariants

/-!
No run follows a number out of an arena. A closure is good if its arena is well formed and has its
body; where all closures are good, whichever arenas they live in, every node, argument list and
parameter list that the machine asks for is there.
-/

namespace ArrowLisp

/-- A closure whose body can be read in its own arena. -/
structure Closure.Good (c : Closure Value) : Prop where
  wellFormed : c.arena.WellFormed
  body_lt : c.body.index < c.arena.size

/-- A value all of whose closures are good, captured ones included. -/
abbrev Value.Good (v : Value) : Prop := v.Hereditarily Closure.Good

/-- An environment that binds only good values. -/
abbrev Environment.Good (env : Environment Value) : Prop := env.Hereditarily Closure.Good

namespace Machine

variable {names : Interner}

/-- A node of a well-formed arena. -/
structure Scope.Reads (scope : Scope) (id : NodeId) : Prop where
  wellFormed : scope.arena.WellFormed
  index_lt : id.index < scope.arena.size

theorem Scope.Reads.child {scope : Scope} {id child : NodeId} {n : Node} (h : scope.Reads id)
    (hNode : scope.arena.node? id = some n) (hChild : child ∈ scope.arena.children n) :
    scope.Reads child :=
  ⟨h.wellFormed, Nat.lt_trans (h.wellFormed.children_lt id n hNode child hChild) h.index_lt⟩

/-- Children are in the arena of their node, and bodies in the arena of their closure. -/
theorem handsOn_reads : HandsOn Scope.Reads Closure.Good := by
  refine .of_children (fun h hNode _ hMem => h.child hNode hMem) (fun _ h hNode _ => ?_)
    fun h _ => ⟨h.wellFormed, h.body_lt⟩
  exact ⟨h.wellFormed, (h.child hNode (List.mem_singleton_self _)).index_lt⟩

abbrev Configuration.Good (c : Configuration) : Prop := c.Has Scope.Reads Closure.Good

theorem evalNode_ne_dangling {scope : Scope} {id : NodeId} {node : Node} (h : scope.Reads id)
    (hNode : scope.arena.node? id = some node) (waiting : List Awaiting) (n : Nat) :
    evalNode names scope waiting n node ≠ .done .dangling := by
  cases node with
  | lambda span body =>
      obtain ⟨params, hParams⟩ := h.wellFormed.exists_params? hNode
      simp [evalNode, hParams]
  | identifier x =>
      rw [evalNode]
      split <;> simp
  | _ => simp [evalNode]

theorem applyValue_ne_dangling (callee : Value) (args : List Value) (waiting : List Awaiting)
    (n : Nat) : applyValue callee args waiting n ≠ .done .dangling := by
  cases callee with
  | number | bool | string => simp [applyValue]
  | primitive op =>
      rw [applyValue]
      split <;> simp
  | closure c =>
      rw [applyValue]
      split <;> simp

theorem resume_ne_dangling {awaiting : Awaiting} (h : awaiting.Has Scope.Reads Closure.Good)
    (v : Value) (waiting : List Awaiting) (n : Nat) :
    resume v waiting n awaiting ≠ .done .dangling := by
  cases h with
  | condition =>
      cases v with
      | bool b => cases b <;> simp [resume]
      | _ => simp [resume]
  | callee hPlace hNode =>
      obtain ⟨ids, hIds⟩ := hPlace.wellFormed.exists_args? hNode
      simp only [resume, hIds]
      split <;> simp
  | arg => simp [resume]

/-- A good configuration does not follow a number out of an arena. -/
theorem Configuration.Good.advance_ne_dangling {c : Configuration} (h : c.Good) :
    advance names c ≠ .done .dangling := by
  obtain ⟨control, waiting, n⟩ := c
  obtain ⟨hControl, hWaiting⟩ := h
  cases hControl with
  | eval hPlace hEnv =>
      obtain ⟨node, hNode⟩ := Arena.exists_node? hPlace.index_lt
      simp only [advance, hNode]
      exact evalNode_ne_dangling hPlace hNode waiting n
  | call hCallee hArgs => exact applyValue_ne_dangling _ _ waiting n
  | @ret v hValue =>
      cases waiting with
      | nil => simp [advance]
      | cons awaiting waiting => exact resume_ne_dangling (hWaiting awaiting (by simp)) v waiting n

theorem Configuration.Good.of_reaches {c d : Configuration} (h : c.Good)
    (hReaches : Reaches names c d) : d.Good :=
  handsOn_reads.of_reaches hReaches h

/-- A run from a good configuration ends with a good value if it ends with a value, and never with a
number that leads nowhere. -/
theorem Configuration.Good.run {c : Configuration} (h : c.Good) (limit : Nat) :
    (run names limit c).1 ≠ .dangling ∧ ∀ v, (run names limit c).1 = .value v → v.Good := by
  refine ⟨fun hRun => ?_, fun v hRun => ?_⟩
  · obtain ⟨d, hReaches, hDone, -⟩ := exists_reaches_of_run (Prod.ext hRun rfl) (by simp)
    exact (h.of_reaches hReaches).advance_ne_dangling hDone
  · obtain ⟨d, hReaches, hDone, -⟩ := exists_reaches_of_run (Prod.ext hRun rfl) (by simp)
    exact (h.of_reaches hReaches).of_done hDone

theorem good_eval {arena : Arena} {id : NodeId} {env : Environment Value}
    (hArena : arena.WellFormed) (hId : id.index < arena.size) (hEnv : env.Good) (n : Nat) :
    Configuration.Good ⟨.eval ⟨arena, env⟩ id, [], n⟩ :=
  ⟨.eval ⟨hArena, hId⟩ hEnv, by simp⟩

theorem good_call {callee : Value} {args : List Value} (hCallee : callee.Good)
    (hArgs : ∀ v ∈ args, v.Good) (n : Nat) : Configuration.Good ⟨.call callee args, [], n⟩ :=
  ⟨.call hCallee hArgs, by simp⟩

end Machine

end ArrowLisp
