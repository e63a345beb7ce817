import ArrowLisp.Proofs.Arena.Growth
import ArrowLisp.Proofs.Expressions

/-!
Storing whole expressions. Parts are stored before the expression that they are parts of, and every
node that is stored becomes the child of one node, except for those of the expressions that were
asked for.
-/

namespace ArrowLisp.Arena

mutual

/-- Store an expression, its parts first and from left to right. -/
def plant (a : Arena) : Expr Name → NodeId × Arena
  | .number x => a.alloc (.number x)
  | .string s => a.alloc (.string s)
  | .bool b => a.alloc (.bool b)
  | .identifier name => a.alloc (.identifier name)
  | .conditional condition consequent alternative =>
    let (condition, a) := a.plant condition
    let (consequent, a) := a.plant consequent
    let (alternative, a) := a.plant alternative
    a.alloc (.conditional condition consequent alternative)
  | .lambda params body =>
    let (body, a) := a.plant body
    let (span, a) := a.allocParams params
    a.alloc (.lambda span body)
  | .apply callee args =>
    let (callee, a) := a.plant callee
    let (args, a) := a.plantAll args
    let (span, a) := a.allocArgs args
    a.alloc (.apply callee span)

/-- Store expressions from left to right. -/
def plantAll (a : Arena) : List (Expr Name) → List NodeId × Arena
  | [] => ([], a)
  | e :: rest =>
    let (id, a) := a.plant e
    let (ids, a) := a.plantAll rest
    (id :: ids, a)

end

/-- Expressions have been stored from one arena to another, with these numbers. -/
structure Planted (a : Arena) (es : List (Expr Name)) (ids : List NodeId) (b : Arena) : Prop where
  grows : a.Extends b
  wellFormed : b.WellFormed
  trees : List.Forall₂ (fun id e => b.tree? id = some e) ids es
  /-- A new node is a child once, or one of those that were asked for. -/
  references : ∀ id, b.references id + ids.count id =
    a.references id + if a.size ≤ id.index ∧ id.index < b.size then 1 else 0

namespace Planted

variable {a b c : Arena} {es fs : List (Expr Name)} {ids js : List NodeId}

theorem nil (h : a.WellFormed) : a.Planted [] [] a :=
  ⟨.refl a, h, .nil, fun id => by simp⟩

theorem append (h : a.Planted es ids b) (h' : b.Planted fs js c) :
    a.Planted (es ++ fs) (ids ++ js) c := by
  refine ⟨h.grows.trans h'.grows, h'.wellFormed, ?_, fun id => ?_⟩
  · exact List.rel_append (h.trees.imp fun _ _ => tree?_of_extends h'.grows) h'.trees
  · have hFirst := h.references id
    have hSecond := h'.references id
    have hSize := h.grows.size_le
    have hSize' := h'.grows.size_le
    rw [List.count_append]
    split at hFirst <;> split at hSecond <;> split <;> omega

/-- The numbers lie in the arena. -/
theorem index_lt (h : a.Planted es ids b) {id : NodeId} (hMem : id ∈ ids) : id.index < b.size := by
  obtain ⟨i, hi, rfl⟩ := List.mem_iff_getElem.1 hMem
  have hTree := h.trees.get hi (h.trees.length_eq ▸ hi)
  obtain ⟨n, hNode, -⟩ := exists_assembles_of_tree? hTree
  exact index_lt_of_node? hNode

/-- Nothing is lost when only the lists of the arena grow. -/
theorem of_nodes_eq (h : a.Planted es ids b) (hExtends : b.Extends c) (hNodes : c.nodes = b.nodes) :
    a.Planted es ids c := by
  refine ⟨h.grows.trans hExtends, h.wellFormed.of_nodes_eq hExtends hNodes, ?_, fun id => ?_⟩
  · exact h.trees.imp fun _ _ => tree?_of_extends hExtends
  · have hSize : c.size = b.size := congrArg Array.size hNodes
    rw [h.wellFormed.references_eq hExtends hNodes, hSize, h.references id]

/-- Expressions that have been stored become the children of a node. -/
theorem alloc {e : Expr Name} {n : Node} (h : a.Planted es ids b) (hChildren : b.children n = ids)
    (hLists : b.ListsWithin n) (hTree : b.Assembles b.tree? n e) :
    a.Planted [e] [(b.alloc n).1] (b.alloc n).2 := by
  refine ⟨h.grows.trans (extends_alloc b n), h.wellFormed.alloc ?_ hLists,
    .cons (tree?_alloc hTree) .nil, fun id => ?_⟩
  · exact fun child hChild => h.index_lt (hChildren ▸ hChild)
  · have hOld := h.references id
    have hSize : (b.alloc n).2.size = b.size + 1 := Array.size_push _
    have hGrows := h.grows.size_le
    have hLast : (b.alloc n).1 = id ↔ b.size = id.index :=
      ⟨congrArg NodeId.index, congrArg NodeId.mk⟩
    rw [references_alloc, hChildren, hSize, List.count_singleton]
    simp only [beq_iff_eq, hLast]
    split at hOld <;> split <;> split <;> omega

end Planted

/-- An expression is stored after all of its parts. -/
theorem index_plant (a : Arena) (e : Expr Name) :
    (a.plant e).1.index + 1 = (a.plant e).2.size := by
  cases e <;> exact (Array.size_push _).symm

end ArrowLisp.Arena
