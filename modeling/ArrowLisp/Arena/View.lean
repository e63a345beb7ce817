import ArrowLisp.Arena

/-!
A node as someone sees it who looks into an arena: names as texts, and stretches with the entries
that lie in them.
-/

namespace ArrowLisp

/-- A node with its own lists read out. Children are still numbers. -/
inductive NodeView where
  | number (x : Float)
  | string (s : String)
  | bool (b : Bool)
  | identifier (text : String)
  | conditional (condition consequent alternative : NodeId)
  /-- The parameters and where they start in the parameter list. -/
  | lambda (start : Nat) (params : List String) (body : NodeId)
  /-- The arguments and where they start in the argument list. -/
  | apply (callee : NodeId) (start : Nat) (args : List NodeId)

namespace Arena

/-- Read out the lists of a node, `none` if one is out of reach. -/
def view? (a : Arena) (names : Interner) : Node → Option NodeView
  | .number x => some (.number x)
  | .string s => some (.string s)
  | .bool b => some (.bool b)
  | .identifier name => some (.identifier (names.lookup name))
  | .conditional condition consequent alternative =>
    some (.conditional condition consequent alternative)
  | .lambda params body =>
    (a.params? params).map fun texts => .lambda params.start (texts.map names.lookup) body
  | .apply callee args => (a.args? args).map fun ids => .apply callee args.start ids

end Arena

end ArrowLisp
