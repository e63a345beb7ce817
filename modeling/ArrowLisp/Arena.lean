import ArrowLisp.Interner

/-!
Programs as flat storage. Nodes refer to their children by number, and the arguments of a call and
the parameters of a lambda are stretches of two lists that all nodes share. A number that lies
outside the storage reads back as `none`.
-/

namespace ArrowLisp

/-- The number of a node in its arena. -/
structure NodeId where
  index : Nat
deriving DecidableEq, Repr

/-- A stretch of a list: where it starts and how many entries it has. -/
structure Span where
  start : Nat
  length : Nat
deriving DecidableEq, Repr

/-- The entries of a stretch, `none` if it reaches beyond the end of the list. An empty stretch
that starts beyond the end is out of reach too. -/
def Span.slice? {α : Type} (s : Span) (xs : Array α) : Option (List α) :=
  if s.start + s.length ≤ xs.size then some (xs.extract s.start (s.start + s.length)).toList
  else none

/-- One expression, with its children as numbers. -/
inductive Node where
  | number (x : Float)
  | string (s : String)
  | bool (b : Bool)
  | identifier (name : Name)
  | conditional (condition consequent alternative : NodeId)
  | lambda (params : Span) (body : NodeId)
  | apply (callee : NodeId) (args : Span)
deriving DecidableEq

/-- Storage that only grows: nodes, arguments of calls and parameters of lambdas. -/
structure Arena where
  nodes : Array Node
  args : Array NodeId
  params : Array Name
deriving DecidableEq

namespace Arena

def empty : Arena := ⟨#[], #[], #[]⟩

instance : Inhabited Arena := ⟨empty⟩

def size (a : Arena) : Nat := a.nodes.size

/-- Store a node after all others. Its children are taken as they come. -/
def alloc (a : Arena) (n : Node) : NodeId × Arena :=
  (⟨a.nodes.size⟩, { a with nodes := a.nodes.push n })

/-- Store a list of arguments after all others. -/
def allocArgs (a : Arena) (ids : List NodeId) : Span × Arena :=
  (⟨a.args.size, ids.length⟩, { a with args := a.args ++ ids.toArray })

/-- Store a list of parameters after all others. -/
def allocParams (a : Arena) (names : List Name) : Span × Arena :=
  (⟨a.params.size, names.length⟩, { a with params := a.params ++ names.toArray })

def node? (a : Arena) (id : NodeId) : Option Node := a.nodes[id.index]?

def args? (a : Arena) (s : Span) : Option (List NodeId) := s.slice? a.args

def params? (a : Arena) (s : Span) : Option (List Name) := s.slice? a.params

end Arena

end ArrowLisp
