import ArrowLisp.Arena.View
import ArrowLisp.Report

/-!
Sessions: one interner, environments and values under names of their own, and an arena that is
filled by hand. Everything that is evaluated in a session shares the interner and the supply of
closure identities, so values of one evaluation can be used in the next.
-/

namespace ArrowLisp

structure Session where
  names : Interner
  envs : Std.TreeMap String (Environment Value)
  values : Std.TreeMap String Value
  /-- The arena that is filled by hand. -/
  arena : Arena
  /-- The identity that no closure of the session has yet. -/
  nextIdentity : Nat

namespace Session

/-- The session in which nothing has happened. -/
def initial : Session := ⟨.empty, ∅, ∅, .empty, 0⟩

instance : Inhabited Session := ⟨initial⟩

/-- A value as a command gives it: outright, or under the name it was stored with. A closure is
only ever given by name, so it keeps its identity. -/
inductive Operand where
  | number (x : Float)
  | bool (b : Bool)
  | string (s : String)
  | primitive (op : Primitive)
  | stored (slot : String)

/-- A program as a command gives it. -/
inductive Source where
  | sexp (s : Sexp)
  | text (text : String)

/-- What a session can be asked to do. `keep` names the place for the result, if it is to be kept;
an error is never kept. -/
inductive Command where
  | intern (text : String)
  | nameText (index : Nat)
  | listNames
  | emptyEnv (keep : Option String)
  /-- The outermost environment, with the primitives. -/
  | topEnv (keep : Option String)
  | bind (env name : String) (value : Operand) (keep : Option String)
  /-- A new frame of as many bindings as there are both names and values. -/
  | frame (env : String) (names : List String) (values : List Operand) (keep : Option String)
  /-- A new frame of names and values that have to agree in number. -/
  | extend (env : String) (names : List String) (values : List Operand) (keep : Option String)
  | get (env name : String) (keep : Option String)
  | depth (env : String)
  | eval (env : String) (source : Source) (keep : Option String)
  | apply (callee : Operand) (args : List Operand) (keep : Option String)
  | equal (left right : Operand)
  | inspect (value : Operand)
  /-- Store a node in the arena. -/
  | alloc (n : Node)
  /-- Store an identifier in the arena under the name of its text. -/
  | allocIdentifier (text : String)
  | allocArgs (ids : List NodeId)
  | allocParams (names : List String)
  | display (id : NodeId)
  /-- Evaluate a node of the arena as it is now. -/
  | run (id : NodeId) (env : String) (keep : Option String)
  /-- A closure over a node of the arena as it is now. -/
  | closure (params : List String) (id : NodeId) (env : String) (keep : Option String)

/-- What is seen of a closure from outside. -/
structure ClosureView where
  params : List String
  /-- The text of the body. -/
  body : String
  bodyId : NodeId
  /-- The number of nodes in its arena. -/
  nodes : Nat
  /-- The depth of the captured environment. -/
  envDepth : Nat

/-- The answer to a command. -/
inductive Reply where
  /-- A name, and how many distinct strings have names now. -/
  | interned (name : Name) (size : Nat)
  | text (text : String)
  | allNames (texts : List String)
  | environment (env : Environment Value)
  | value (v : Value)
  /-- The name is not bound. -/
  | unbound
  | count (n : Nat)
  | truth (b : Bool)
  | inspection (v : Value) (closure : Option ClosureView)
  /-- A stored node, and how many nodes the arena has now. -/
  | node (id : NodeId) (size : Nat)
  | span (s : Span)
  | shown (text : String) (node : NodeView)
  | error (e : ProgramError)
  /-- A number that lies outside an arena was followed. -/
  | dangling
  /-- An evaluation was cut off. -/
  | unfinished
  /-- The command speaks of a stored environment or value that there is not. -/
  | unknown (place : String)

/-- The value of an operand, or the name under which nothing is stored. -/
def resolve (s : Session) : Operand → Except String Value
  | .number x => .ok (.number x)
  | .bool b => .ok (.bool b)
  | .string t => .ok (.string t)
  | .primitive op => .ok (.primitive op)
  | .stored slot =>
    match s.values[slot]? with
    | some v => .ok v
    | none => .error slot

/-- The environment under a name. -/
def env (s : Session) (place : String) : Except String (Environment Value) :=
  match s.envs[place]? with
  | some e => .ok e
  | none => .error place

/-- Answer with an environment, and keep it if that is asked for. -/
def keepEnv (s : Session) (keep : Option String) (e : Environment Value) : Reply × Session :=
  match keep with
  | some place => (.environment e, { s with envs := s.envs.insert place e })
  | none => (.environment e, s)

/-- Answer with a value, and keep it if that is asked for. -/
def keepValue (s : Session) (keep : Option String) (v : Value) : Reply × Session :=
  match keep with
  | some slot => (.value v, { s with values := s.values.insert slot v })
  | none => (.value v, s)

/-- Answer with the outcome of a run, after which a new supply of identities is in force. -/
def keepOutcome (s : Session) (keep : Option String) (result : Outcome EvalError × Nat) :
    Reply × Session :=
  let s := { s with nextIdentity := result.2 }
  match result.1 with
  | .value v => s.keepValue keep v
  | .error e => (.error (.eval e), s)
  | .dangling => (.dangling, s)
  | .unfinished => (.unfinished, s)

/-- Name the strings of a command. -/
def internAll (s : Session) (texts : List String) : List Name × Session :=
  let (names, interner) := s.names.internAll texts
  (names, { s with names := interner })

/-- The tree of a source. -/
def Source.sexp? : Source → Except ReadError Sexp
  | .sexp s => .ok s
  | .text t => Sexp.ofText t

/-- Parse a source with the names of the session and evaluate it. Names stay known even if the
source turns out to be no program. -/
def evalSource (limit : Nat) (s : Session) (env : Environment Value) (source : Source)
    (keep : Option String) : Reply × Session :=
  match source.sexp? with
  | .error e => (.error (.read e), s)
  | .ok tree =>
    match Program.ofSexp tree s.names with
    | (.error e, names) => (.error (.parse e), { s with names })
    | (.ok program, names) =>
      { s with names }.keepOutcome keep
        (Machine.eval limit names program.arena program.root env s.nextIdentity)

/-- Look at a value. A closure whose body leads out of its arena cannot be looked at. -/
def inspect (s : Session) (v : Value) : Reply :=
  match v with
  | .closure c =>
    match c.arena.display? s.names c.body with
    | some body =>
      .inspection v (some ⟨c.params.map s.names.lookup, body, c.body, c.arena.size, c.env.depth⟩)
    | none => .dangling
  | _ => .inspection v none

/-- Show a node of the arena. -/
def showNode (s : Session) (id : NodeId) : Reply :=
  match s.arena.display? s.names id, (s.arena.node? id).bind (s.arena.view? s.names) with
  | some rendered, some view => .shown rendered view
  | _, _ => .dangling

/-- Answer that a stored environment or value is missing. -/
def orUnknown (s : Session) (r : Except String (Reply × Session)) : Reply × Session :=
  match r with
  | .ok answer => answer
  | .error place => (.unknown place, s)

/-- Carry out a command. A run takes at most `limit` steps. -/
def perform (limit : Nat) (s : Session) : Command → Reply × Session
  | .intern text =>
    let (name, names) := s.names.intern text
    (.interned name names.size, { s with names })
  | .nameText index => (.text (s.names.lookup ⟨index⟩), s)
  | .listNames => (.allNames s.names.strings.toList, s)
  | .emptyEnv keep => s.keepEnv keep .empty
  | .topEnv keep =>
    let (env, names) := s.names.topEnvironment
    { s with names }.keepEnv keep env
  | .bind env name value keep =>
    s.orUnknown do
      let env ← s.env env
      let value ← s.resolve value
      let (name, names) := s.names.intern name
      return { s with names }.keepEnv keep (env.bind name value)
  | .frame env names values keep =>
    s.orUnknown do
      let env ← s.env env
      let values ← values.mapM s.resolve
      let (names, s) := s.internAll names
      return s.keepEnv keep (env.withFrame (names.zip values))
  | .extend env names values keep =>
    s.orUnknown do
      let env ← s.env env
      let values ← values.mapM s.resolve
      let (names, s) := s.internAll names
      match env.extend names values with
      | .ok env => return s.keepEnv keep env
      | .error e => return (.error (.eval e), s)
  | .get env name keep =>
    s.orUnknown do
      let env ← s.env env
      let (name, names) := s.names.intern name
      let s := { s with names }
      match env.lookup name with
      | some v => return s.keepValue keep v
      | none => return (.unbound, s)
  | .depth env => s.orUnknown do return (.count (← s.env env).depth, s)
  | .eval env source keep => s.orUnknown do return s.evalSource limit (← s.env env) source keep
  | .apply callee args keep =>
    s.orUnknown do
      let callee ← s.resolve callee
      let args ← args.mapM s.resolve
      return s.keepOutcome keep (Machine.apply limit s.names callee args s.nextIdentity)
  | .equal left right =>
    s.orUnknown do return (.truth ((← s.resolve left).equal (← s.resolve right)), s)
  | .inspect value => s.orUnknown do return (s.inspect (← s.resolve value), s)
  | .alloc n =>
    let (id, arena) := s.arena.alloc n
    (.node id arena.size, { s with arena })
  | .allocIdentifier text =>
    let (name, names) := s.names.intern text
    let (id, arena) := s.arena.alloc (.identifier name)
    (.node id arena.size, { s with names, arena })
  | .allocArgs ids =>
    let (span, arena) := s.arena.allocArgs ids
    (.span span, { s with arena })
  | .allocParams names =>
    let (names, s) := s.internAll names
    let (span, arena) := s.arena.allocParams names
    (.span span, { s with arena })
  | .display id => (s.showNode id, s)
  | .run id env keep =>
    s.orUnknown do
      let env ← s.env env
      return s.keepOutcome keep (Machine.eval limit s.names s.arena id env s.nextIdentity)
  | .closure params id env keep =>
    s.orUnknown do
      let env ← s.env env
      let (params, s) := s.internAll params
      let closure : Value := .closure ⟨s.nextIdentity, params, id, env, s.arena⟩
      return { s with nextIdentity := s.nextIdentity + 1 }.keepValue keep closure

end Session

end ArrowLisp
