import ArrowLisp.Primitive.Apply

/-!
Evaluation, step by step. A configuration says what is being done now and what has to be done with
the result; since the latter is a list, nesting and recursion of a program are no limit. Arguments
are evaluated from left to right, after the callee has turned out to be callable. The body of a
closure runs in the environment of its lambda with one more frame, and the first error ends a run.
-/

namespace ArrowLisp

/-- How a run ends, with `ε` for the errors it can end with. -/
inductive Outcome (ε : Type) where
  | value (v : Value)
  | error (e : ε)
  /-- A number that lies outside an arena was followed. -/
  | dangling
  /-- The run was cut off. -/
  | unfinished

namespace Outcome

/-- A value or an error, if the run came to one. -/
def toExcept? {ε : Type} : Outcome ε → Option (Except ε Value)
  | .value v => some (.ok v)
  | .error e => some (.error e)
  | .dangling | .unfinished => none

/-- The same outcome with its error put otherwise. -/
def mapError {ε δ : Type} (f : ε → δ) : Outcome ε → Outcome δ
  | .value v => .value v
  | .error e => .error (f e)
  | .dangling => .dangling
  | .unfinished => .unfinished

section MapError

variable {ε δ : Type} {f : ε → δ} {o : Outcome ε}

theorem mapError_eq_value_iff {v : Value} : o.mapError f = .value v ↔ o = .value v := by
  cases o <;> simp [mapError]

theorem mapError_eq_dangling_iff : o.mapError f = .dangling ↔ o = .dangling := by
  cases o <;> simp [mapError]

end MapError

end Outcome

namespace Machine

/-- Where an expression is evaluated: the arena of its node and the values of its identifiers. -/
structure Scope where
  arena : Arena
  env : Environment Value

inductive Control where
  /-- Evaluate a node. -/
  | eval (scope : Scope) (id : NodeId)
  /-- Apply a value to arguments. -/
  | call (callee : Value) (args : List Value)
  /-- Hand a value to what waits for it. -/
  | ret (v : Value)

/-- What waits for a value. -/
inductive Awaiting where
  /-- The value is a condition; one of two nodes comes next. -/
  | condition (scope : Scope) (consequent alternative : NodeId)
  /-- The value is a callee; its arguments come next. -/
  | callee (scope : Scope) (args : Span)
  /-- The value is an argument. Those before it are kept in reverse. -/
  | arg (scope : Scope) (callee : Value) (evaluated : List Value) (args : List NodeId)

/-- A moment of a run: what is being done, what waits for its value, innermost first, and the
identity that the next closure gets. -/
structure Configuration where
  control : Control
  waiting : List Awaiting
  nextIdentity : Nat

inductive Advance where
  | next (c : Configuration)
  | done (o : Outcome EvalError)

/-- Evaluate the arguments that are left, then apply the callee. -/
def continueArgs (scope : Scope) (callee : Value) (evaluated : List Value) (args : List NodeId)
    (waiting : List Awaiting) (nextIdentity : Nat) : Configuration :=
  match args with
  | [] => ⟨.call callee evaluated.reverse, waiting, nextIdentity⟩
  | arg :: args => ⟨.eval scope arg, .arg scope callee evaluated args :: waiting, nextIdentity⟩

/-- Begin to evaluate a node. -/
def evalNode (names : Interner) (scope : Scope) (waiting : List Awaiting) (nextIdentity : Nat) :
    Node → Advance
  | .number x => .next ⟨.ret (.number x), waiting, nextIdentity⟩
  | .string s => .next ⟨.ret (.string s), waiting, nextIdentity⟩
  | .bool b => .next ⟨.ret (.bool b), waiting, nextIdentity⟩
  | .identifier name =>
    match scope.env.lookup name with
    | some v => .next ⟨.ret v, waiting, nextIdentity⟩
    | none => .done (.error (.unboundIdentifier (names.lookup name)))
  | .conditional condition consequent alternative =>
    .next ⟨.eval scope condition, .condition scope consequent alternative :: waiting,
      nextIdentity⟩
  | .lambda params body =>
    match scope.arena.params? params with
    | some params =>
      .next ⟨.ret (.closure ⟨nextIdentity, params, body, scope.env, scope.arena⟩), waiting,
        nextIdentity + 1⟩
    | none => .done .dangling
  | .apply callee args =>
    .next ⟨.eval scope callee, .callee scope args :: waiting, nextIdentity⟩

def applyValue (callee : Value) (args : List Value) (waiting : List Awaiting)
    (nextIdentity : Nat) : Advance :=
  match callee with
  | .primitive op =>
    match op.apply args with
    | .ok v => .next ⟨.ret v, waiting, nextIdentity⟩
    | .error e => .done (.error e)
  | .closure c =>
    match c.env.extend c.params args with
    | .ok env => .next ⟨.eval ⟨c.arena, env⟩ c.body, waiting, nextIdentity⟩
    | .error e => .done (.error e)
  | other => .done (.error (.typeMismatch (.notCallable other.kind)))

/-- Use a value where it has been waited for. -/
def resume (v : Value) (waiting : List Awaiting) (nextIdentity : Nat) : Awaiting → Advance
  | .condition scope consequent alternative =>
    match v with
    | .bool true => .next ⟨.eval scope consequent, waiting, nextIdentity⟩
    | .bool false => .next ⟨.eval scope alternative, waiting, nextIdentity⟩
    | other => .done (.error (.typeMismatch (.conditionNotBool other.kind)))
  | .callee scope args =>
    if v.isCallable then
      match scope.arena.args? args with
      | some args => .next (continueArgs scope v [] args waiting nextIdentity)
      | none => .done .dangling
    else .done (.error (.typeMismatch (.notCallable v.kind)))
  | .arg scope callee evaluated args =>
    .next (continueArgs scope callee (v :: evaluated) args waiting nextIdentity)

/-- One step. The interner is only asked for the text of an unbound identifier. -/
def advance (names : Interner) (c : Configuration) : Advance :=
  match c.control with
  | .eval scope id =>
    match scope.arena.node? id with
    | some node => evalNode names scope c.waiting c.nextIdentity node
    | none => .done .dangling
  | .call callee args => applyValue callee args c.waiting c.nextIdentity
  | .ret v =>
    match c.waiting with
    | [] => .done (.value v)
    | awaiting :: waiting => resume v waiting c.nextIdentity awaiting

/-- Take at most `limit` steps. Besides the outcome comes the identity that no closure has yet. -/
def run (names : Interner) : Nat → Configuration → Outcome EvalError × Nat
  | 0, c => (.unfinished, c.nextIdentity)
  | limit + 1, c =>
    match advance names c with
    | .next c => run names limit c
    | .done o => (o, c.nextIdentity)

def eval (limit : Nat) (names : Interner) (arena : Arena) (id : NodeId) (env : Environment Value)
    (nextIdentity : Nat) : Outcome EvalError × Nat :=
  run names limit ⟨.eval ⟨arena, env⟩ id, [], nextIdentity⟩

def apply (limit : Nat) (names : Interner) (callee : Value) (args : List Value)
    (nextIdentity : Nat) : Outcome EvalError × Nat :=
  run names limit ⟨.call callee args, [], nextIdentity⟩

end Machine

end ArrowLisp
