import ArrowLisp.Arena
import ArrowLisp.Error
import ArrowLisp.Form
import ArrowLisp.Sexp.Text
import ArrowLisp.Worklist

/-!
Programs out of literal trees. A tree is walked depth first and from left to right; children are
stored before the node that refers to them, so a program's root is its last node. The walk keeps
the lists that are open in a list of its own, and the depth of a tree is no limit.
-/

namespace ArrowLisp

/-- An arena and the node in it that stands for the whole program. -/
structure Program where
  arena : Arena
  root : NodeId

namespace Program

/-- What a walk has produced so far. Names stay known even if the walk fails later. -/
structure Builder where
  arena : Arena
  names : Interner

namespace Builder

/-- Store a node. -/
def alloc (b : Builder) (n : Node) : NodeId × Builder :=
  let (id, arena) := b.arena.alloc n
  (id, { b with arena })

/-- Store an identifier under the name of its text. -/
def allocIdentifier (b : Builder) (text : String) : NodeId × Builder :=
  let (name, names) := b.names.intern text
  { b with names }.alloc (.identifier name)

/-- Store a lambda, its parameters at the end of the parameter list. -/
def allocLambda (b : Builder) (params : List Name) (body : NodeId) : NodeId × Builder :=
  let (span, arena) := b.arena.allocParams params
  { b with arena }.alloc (.lambda span body)

/-- Store a call, its arguments at the end of the argument list. -/
def allocApply (b : Builder) (callee : NodeId) (args : List NodeId) : NodeId × Builder :=
  let (span, arena) := b.arena.allocArgs args
  { b with arena }.alloc (.apply callee span)

/-- Name the items of a parameter list up to the first one that is not a symbol. -/
def nameParams (b : Builder) : List Sexp → Except ParseError (List Name) × Builder
  | [] => (.ok [], b)
  | item :: rest =>
    match item.symbol? with
    | none => (.error (.invalidParameter item.display), b)
    | some text =>
      let (name, names) := b.names.intern text
      let (others, b) := { b with names }.nameParams rest
      (others.map (name :: ·), b)

/-- Name the parameters of a lambda, of which there has to be one. -/
def params (b : Builder) (items : List Sexp) : Except ParseError (List Name) × Builder :=
  if items.isEmpty then (.error .missingParameters, b) else b.nameParams items

end Builder

/-- A list whose parts are being built: the part under way is left out, those before it are
stored and those after it are still trees. -/
inductive OpenForm where
  | atCondition (consequent alternative : Sexp)
  | atConsequent (condition : NodeId) (alternative : Sexp)
  | atAlternative (condition consequent : NodeId)
  | atBody (params : List Name)
  | atCallee (args : List Sexp)
  /-- Stored arguments are kept in reverse. -/
  | atArg (callee : NodeId) (stored : List NodeId) (args : List Sexp)

/-- The part that a walk has reached: a tree to build or a node just stored. -/
inductive Focus where
  | tree (s : Sexp)
  | node (id : NodeId)

/-- A bound on the steps that an open form takes once its part under way is stored. -/
noncomputable def OpenForm.weight : OpenForm → Nat
  | .atCondition consequent alternative => 2 * sizeOf consequent + 2 * sizeOf alternative + 3
  | .atConsequent _ alternative => 2 * sizeOf alternative + 2
  | .atAlternative _ _ => 1
  | .atBody _ => 1
  | .atCallee args => 2 * sizeOf args
  | .atArg _ _ args => 2 * sizeOf args

/-- A bound on the steps that the reached part takes. -/
noncomputable def Focus.weight : Focus → Nat
  | .tree s => 2 * sizeOf s
  | .node _ => 0

/-- Build the part that has been reached, then all that is open around it, innermost first. -/
def build (focus : Focus) (forms : List OpenForm) (b : Builder) :
    Except ParseError NodeId × Builder :=
  match focus, forms with
  | .tree (.number x), forms =>
    let (id, b) := b.alloc (.number x)
    build (.node id) forms b
  | .tree (.string s), forms =>
    let (id, b) := b.alloc (.string s)
    build (.node id) forms b
  | .tree (.bool value), forms =>
    let (id, b) := b.alloc (.bool value)
    build (.node id) forms b
  | .tree (.symbol text), forms =>
    let (id, b) := b.allocIdentifier text
    build (.node id) forms b
  | .tree (.list items), forms =>
    match _hForm : Form.ofItems items with
    | .conditional condition consequent alternative =>
      build (.tree condition) (.atCondition consequent alternative :: forms) b
    | .lambda params body =>
      match b.params params with
      | (.error e, b) => (.error e, b)
      | (.ok names, b) => build (.tree body) (.atBody names :: forms) b
    | .application [] => (.error .emptyList, b)
    | .application (callee :: args) => build (.tree callee) (.atCallee args :: forms) b
  | .node id, [] => (.ok id, b)
  | .node id, .atCondition consequent alternative :: forms =>
    build (.tree consequent) (.atConsequent id alternative :: forms) b
  | .node id, .atConsequent condition alternative :: forms =>
    build (.tree alternative) (.atAlternative condition id :: forms) b
  | .node id, .atAlternative condition consequent :: forms =>
    let (id, b) := b.alloc (.conditional condition consequent id)
    build (.node id) forms b
  | .node id, .atBody params :: forms =>
    let (id, b) := b.allocLambda params id
    build (.node id) forms b
  | .node id, .atCallee [] :: forms =>
    let (id, b) := b.allocApply id []
    build (.node id) forms b
  | .node id, .atCallee (arg :: args) :: forms => build (.tree arg) (.atArg id [] args :: forms) b
  | .node id, .atArg callee stored [] :: forms =>
    let (id, b) := b.allocApply callee (id :: stored).reverse
    build (.node id) forms b
  | .node id, .atArg callee stored (arg :: args) :: forms =>
    build (.tree arg) (.atArg callee (id :: stored) args :: forms) b
termination_by focus.weight + totalWeight OpenForm.weight forms
decreasing_by
  all_goals simp [Focus.weight, OpenForm.weight]
  all_goals grind [→ Form.sizeOf_conditional, → Form.sizeOf_lambda, → Form.sizeOf_application]

/-- The program of a literal tree. The interner that comes back knows every name that was met
before the walk ended, and so it does when the tree is no program. -/
def ofSexp (s : Sexp) (names : Interner) : Except ParseError Program × Interner :=
  match build (.tree s) [] ⟨.empty, names⟩ with
  | (.ok root, b) => (.ok ⟨b.arena, root⟩, b.names)
  | (.error e, b) => (.error e, b.names)

end Program

end ArrowLisp
