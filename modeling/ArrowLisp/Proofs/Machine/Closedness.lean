import ArrowLisp.Proofs.FreeNames
import ArrowLisp.Proofs.Machine.Invariants
import ArrowLisp.Proofs.Program.Canonical
import ArrowLisp.Proofs.TopEnvironment
import ArrowLisp.Report

/-!
Where unbound names come from. A closure is closed if its free names are bound in the environment
that it has captured. Evaluation where all is closed does not meet an unbound name and gives closed
values; and if names of a certain kind are missing at the start, then only such names are ever
found unbound.
-/

namespace ArrowLisp

/-- A closure whose free names are bound in the environment that it has captured. -/
def Closure.Closed (c : Closure Value) : Prop := ∀ x, c.Free x → (c.env.lookup x).isSome

/-- A value all of whose closures are closed, captured ones included. -/
abbrev Value.Closed (v : Value) : Prop := v.Hereditarily Closure.Closed

/-- An environment that binds only closed values. -/
abbrev Environment.Closed (env : Environment Value) : Prop := env.Hereditarily Closure.Closed

/-- A closure of whose free names only some may be missing in its environment. -/
def Closure.Lacks (missing : Name → Prop) (c : Closure Value) : Prop :=
  ∀ x, c.Free x → c.env.lookup x = none → missing x

theorem Closure.lacks_none_iff {c : Closure Value} : c.Lacks (fun _ => False) ↔ c.Closed := by
  simp only [Lacks, Closed, Option.isSome_iff_ne_none, ne_eq, imp_false]

/-- Primitives do not look for names. -/
theorem Primitive.apply_ne_unbound (op : Primitive) (args : List Value) (t : String) :
    op.apply args ≠ .error (.unboundIdentifier t) := by
  unfold apply
  split
  · simp
  · simp
  · split
    · split
      · cases op <;> grind [onNumbers]
      · simp
    · simp
  · simp

namespace Machine

variable {names : Interner} {missing : Name → Prop}

/-- A node of whose free names only some may be missing in the environment. -/
def Scope.Lacks (missing : Name → Prop) (scope : Scope) (id : NodeId) : Prop :=
  ∀ x, scope.arena.Free x id → scope.env.lookup x = none → missing x

/-- Nothing more goes missing: parameters are bound when the body of a lambda is evaluated. -/
theorem handsOn_lacks : HandsOn (Scope.Lacks missing) (Closure.Lacks missing) := by
  refine .of_children (fun h hNode hOther hMem x hFree => h x (hFree.of_child hNode hOther hMem))
    (fun _ h hNode hParams x hFree => h x (hFree.1.of_body hNode hParams hFree.2))
    fun {c args env} h hExtend x hFree hNone => ?_
  obtain ⟨hLength, rfl⟩ := Environment.extend_eq_ok_iff.1 hExtend
  obtain ⟨hFrame, hOuter⟩ := Option.or_eq_none_iff.1 (Environment.lookup_withFrame .. ▸ hNone)
  refine h x ⟨hFree, fun hParam => ?_⟩ hOuter
  have hBound := (Frame.isSome_find?_ofList_zip hLength x).2 hParam
  exact absurd hBound (by simp [hFrame])

theorem applyValue_ne_unbound (callee : Value) (args : List Value) (waiting : List Awaiting)
    (n : Nat) (t : String) :
    applyValue callee args waiting n ≠ .done (.error (.unboundIdentifier t)) := by
  cases callee with
  | number | bool | string => simp [applyValue]
  | primitive op =>
      rw [applyValue]
      split
      · simp
      · next e hApply =>
          have hOther := op.apply_ne_unbound args t
          simp_all
  | closure c =>
      rw [applyValue]
      split
      · simp
      · next e hExtend =>
          rw [Environment.extend] at hExtend
          split at hExtend <;> cases hExtend
          simp

theorem resume_ne_unbound (v : Value) (waiting : List Awaiting) (n : Nat) (awaiting : Awaiting)
    (t : String) : resume v waiting n awaiting ≠ .done (.error (.unboundIdentifier t)) := by
  cases awaiting with
  | condition scope consequent alternative =>
      cases v with
      | bool b => cases b <;> simp [resume]
      | _ => simp [resume]
  | callee scope span => grind [resume]
  | arg => simp [resume]

/-- A name is found unbound only where an identifier is evaluated. -/
theorem exists_identifier_of_unbound {c : Configuration} {t : String}
    (h : advance names c = .done (.error (.unboundIdentifier t))) :
    ∃ scope id x, c.control = .eval scope id ∧ scope.arena.node? id = some (.identifier x) ∧
      scope.env.lookup x = none ∧ names.lookup x = t := by
  obtain ⟨control, waiting, n⟩ := c
  cases control with
  | eval scope id =>
      cases hNode : scope.arena.node? id with
      | none => simp [advance, hNode] at h
      | some node =>
          simp only [advance, hNode] at h
          cases node <;> grind [evalNode]
  | call callee args => exact absurd h (applyValue_ne_unbound callee args waiting n t)
  | ret v =>
      cases waiting with
      | nil => cases h
      | cons awaiting waiting => exact absurd h (resume_ne_unbound v waiting n awaiting t)

/-- A run from a configuration where only some names may be missing finds no other name unbound. -/
theorem Configuration.Has.exists_missing {c : Configuration}
    (h : c.Has (Scope.Lacks missing) (Closure.Lacks missing)) {limit : Nat} {t : String}
    (hRun : (run names limit c).1 = .error (.unboundIdentifier t)) :
    ∃ x, missing x ∧ names.lookup x = t := by
  obtain ⟨d, hReaches, hDone, -⟩ := exists_reaches_of_run (Prod.ext hRun rfl) (by simp)
  obtain ⟨scope, id, x, hControl, hNode, hLookup, hText⟩ := exists_identifier_of_unbound hDone
  have hHas := (handsOn_lacks.of_reaches hReaches h).control
  rw [hControl] at hHas
  cases hHas with
  | eval hPlace _ => exact ⟨x, hPlace x (.identifier hNode) hLookup, hText⟩

section Eval

variable {arena : Arena} {id : NodeId} {env : Environment Value} {limit next : Nat}

theorem has_lacks (hEnv : env.Closed) (hPlace : Scope.Lacks missing ⟨arena, env⟩ id) :
    Configuration.Has (Scope.Lacks missing) (Closure.Lacks missing)
      ⟨.eval ⟨arena, env⟩ id, [], next⟩ := by
  refine ⟨.eval hPlace (hEnv.mono fun c hClosed x hFree hNone => ?_), by simp⟩
  exact absurd (hClosed x hFree) (by simp [hNone])

/-- A name that evaluation in a closed environment finds unbound is free in what is evaluated, and
it was unbound from the start. -/
theorem exists_free_of_unbound (hEnv : env.Closed) {t : String}
    (hRun : (eval limit names arena id env next).1 = .error (.unboundIdentifier t)) :
    ∃ x, arena.Free x id ∧ env.lookup x = none ∧ names.lookup x = t := by
  have hPlace : Scope.Lacks (fun x => arena.Free x id ∧ env.lookup x = none) ⟨arena, env⟩ id :=
    fun x hFree hNone => ⟨hFree, hNone⟩
  obtain ⟨x, ⟨hFree, hNone⟩, hText⟩ := (has_lacks hEnv hPlace).exists_missing hRun
  exact ⟨x, hFree, hNone, hText⟩

/-- Where all free names are bound, evaluation gives closed values. -/
theorem closed_of_eval (hEnv : env.Closed) (hBound : ∀ x, arena.Free x id → (env.lookup x).isSome)
    {v : Value} (hRun : (eval limit names arena id env next).1 = .value v) : v.Closed := by
  have hPlace : Scope.Lacks (fun _ => False) ⟨arena, env⟩ id :=
    fun x hFree hNone => absurd (hBound x hFree) (by simp [hNone])
  obtain ⟨c, hReaches, hDone, -⟩ := exists_reaches_of_run (Prod.ext hRun rfl) (by simp)
  have hValue := (handsOn_lacks.of_reaches hReaches (has_lacks hEnv hPlace)).of_done hDone
  exact hValue.mono fun c => Closure.lacks_none_iff.1

end Eval

end Machine

namespace Outcome

variable {ε δ : Type}

/-- The error with which a run ended. -/
def error? : Outcome ε → Option ε
  | .error e => some e
  | .value _ | .dangling | .unfinished => none

theorem error?_eq_some_iff {o : Outcome ε} {e : ε} : o.error? = some e ↔ o = .error e := by
  cases o <;> simp [error?]

theorem error?_mapError (f : ε → δ) (o : Outcome ε) : (o.mapError f).error? = o.error?.map f := by
  cases o <;> rfl

end Outcome

namespace Program

/-- A text that is no program has an error of reading or of parsing. -/
theorem ofText_ne_eval (text : String) (e : EvalError) : ofText text ≠ .error (.eval e) := by
  rw [ofText]
  split
  · simp
  · split <;> simp

theorem exists_ofSexp_of_ofText {text : String} {p : Program} {names : Interner}
    (h : ofText text = .ok (p, names)) : ∃ s, ofSexp s .empty = (.ok p, names) := by
  rw [ofText] at h
  split at h
  · cases h
  · next s _ =>
      split at h
      · cases h
      · next hProgram => cases h; exact ⟨s, hProgram⟩

/-- The name of an identifier that is unbound in the outermost environment is free in the program,
and no primitive has it. -/
theorem exists_free_of_unbound_top {s : Sexp} {i names : Interner} {p : Program}
    (hProgram : ofSexp s i = (.ok p, names)) {limit next : Nat} {t : String}
    (hRun : (Machine.eval limit names.topEnvironment.2 p.arena p.root names.topEnvironment.1
      next).1 = .error (.unboundIdentifier t)) :
    ∃ e, p.expr? names = some e ∧ e.Free t ∧ ∀ op : Primitive, op.name ≠ t := by
  obtain ⟨e, hTree, -, hIssued⟩ := exists_tree?_of_ofSexp hProgram
  obtain ⟨x, hFree, hNone, hText⟩ :=
    Machine.exists_free_of_unbound names.hereditarily_topEnvironment hRun
  have hFree := (Arena.free_iff_of_tree? hTree).1 hFree
  have hName := hIssued x hFree.mem_names
  obtain rfl : names.lookup x = t := names.extends_topEnvironment.lookup_eq hName ▸ hText
  refine ⟨e.map names.lookup, by rw [expr?, hTree]; rfl,
    hFree.map fun y hy => (hIssued y hy).lookup_injective hName, fun op hOp => ?_⟩
  have hBound := (Interner.lookup_topEnvironment_eq_some_iff (.refl _)).2
    ⟨op, names.extends_topEnvironment.find? (hOp ▸ hName.find?_lookup), rfl⟩
  simp [hNone] at hBound

/-- Unbound names are free names. If the environment binds closed values only, and among them all
names that are free in a program, then no name is found unbound and a value that is returned is
closed. A name that is found unbound in the outermost environment is free in the program, and no
primitive has it. -/
theorem unbound_only_if_free :
    (∀ {s : Sexp} {i i' : Interner} {p : Program}, ofSexp s i = (.ok p, i') →
      ∃ e, p.arena.tree? p.root = some e ∧
        ∀ env : Environment Value, env.Closed → (∀ x, e.Free x → (env.lookup x).isSome) →
          ∀ limit names next,
            (∀ t, (Machine.eval limit names p.arena p.root env next).1 ≠
              .error (.unboundIdentifier t)) ∧
            ∀ v, (Machine.eval limit names p.arena p.root env next).1 = .value v → v.Closed) ∧
    ∀ limit text name, evaluateText limit text = .error (.eval (.unboundIdentifier name)) →
      ∃ p names e, ofText text = .ok (p, names) ∧ p.expr? names = some e ∧ e.Free name ∧
        ∀ op : Primitive, op.name ≠ name := by
  constructor
  · intro s i i' p hProgram
    obtain ⟨e, hTree, -, -⟩ := exists_tree?_of_ofSexp hProgram
    refine ⟨e, hTree, fun env hEnv hBound limit names next => ⟨fun t hRun => ?_, fun v hRun => ?_⟩⟩
    · obtain ⟨x, hFree, hNone, -⟩ := Machine.exists_free_of_unbound hEnv hRun
      have hSome := hBound x ((Arena.free_iff_of_tree? hTree).1 hFree)
      exact absurd hSome (by simp [hNone])
    · exact Machine.closed_of_eval hEnv
        (fun x hFree => hBound x ((Arena.free_iff_of_tree? hTree).1 hFree)) hRun
  · intro limit text name hRun
    simp only [evaluateText] at hRun
    cases hText : ofText text with
    | error e =>
        rw [hText, Outcome.error.injEq] at hRun
        exact absurd (hRun ▸ hText) (ofText_ne_eval text _)
    | ok result =>
        obtain ⟨p, names⟩ := result
        obtain ⟨s, hProgram⟩ := exists_ofSexp_of_ofText hText
        rw [hText] at hRun
        rw [← Outcome.error?_eq_some_iff, Outcome.error?_mapError, Option.map_eq_some_iff] at hRun
        obtain ⟨_, hEval, hError⟩ := hRun
        cases hError
        rw [Outcome.error?_eq_some_iff] at hEval
        obtain ⟨e, hExpr, hFree, hOther⟩ := exists_free_of_unbound_top hProgram hEval
        exact ⟨p, names, e, rfl, hExpr, hFree, hOther⟩

/-- The closure that keeps a value for `y` is closed; without such a value `y` is unbound. -/
theorem unbound_only_if_free_captured :
    (∃ p i', ofSexp (.list [.symbol "x", .symbol "=>", .symbol "y"]) .empty = (.ok p, i') ∧
      ∃ c, (Machine.eval 2 .empty p.arena p.root (.bind .empty ⟨1⟩ (.bool true)) 0).1 =
        .value (.closure c) ∧ c.Free ⟨1⟩ ∧ c.Closed) ∧
    ∃ p names e, ofText "\"y\"" = .ok (p, names) ∧ p.expr? names = some e ∧ e.Free "y" ∧
      ∀ op : Primitive, op.name ≠ "y" := by
  constructor
  · have hProgram : (ofSexp (.list [.symbol "x", .symbol "=>", .symbol "y"]) .empty).1 =
        .ok ⟨⟨#[.identifier ⟨1⟩, .lambda ⟨0, 1⟩ ⟨0⟩], #[], #[⟨0⟩]⟩, ⟨1⟩⟩ := by cbv
    obtain ⟨e, hTree, hEval⟩ := unbound_only_if_free.1 (Prod.ext hProgram rfl)
    cases hTree
    have hEnv : (Environment.empty.bind ⟨1⟩ (Value.bool true)).Closed :=
      Environment.Hereditarily.empty.bind (.bool true) ⟨1⟩
    have hBound : ∀ x, (Expr.lambda [⟨0⟩] (.identifier ⟨1⟩)).Free x →
        ((Environment.empty.bind ⟨1⟩ (Value.bool true)).lookup x).isSome := by
      intro x hFree
      obtain ⟨-, hBody⟩ := Expr.free_lambda_iff.1 hFree
      obtain rfl := Expr.free_identifier_iff.1 hBody
      rfl
    have hClosed := (hEval _ hEnv hBound 2 .empty 0).2 _ rfl
    exact ⟨_, _, Prod.ext hProgram rfl, _, rfl, ⟨.identifier rfl, by simp⟩, hClosed.here⟩
  · exact unbound_only_if_free.2 2 _ _ (Outcome.error?_eq_some_iff.1 (by decide +kernel))

end Program

end ArrowLisp
