import ArrowLisp.Proofs.Arena.Lexical
import ArrowLisp.Proofs.Arena.Planting

/-!
How a whole expression lies in an arena. Its nodes are the subexpressions in post-order, so that
everything below a node is a block of numbers that ends with the node. The lists of calls and
lambdas follow each other as their nodes do, and nothing of the shared lists is left over.
-/

namespace ArrowLisp

namespace Expr

variable {ν : Type}

mutual

/-- An expression and all below it, each after its own parts. -/
def postorder : Expr ν → List (Expr ν)
  | .number x => [.number x]
  | .string s => [.string s]
  | .bool b => [.bool b]
  | .identifier name => [.identifier name]
  | .conditional condition consequent alternative =>
    condition.postorder ++ consequent.postorder ++ alternative.postorder ++
      [.conditional condition consequent alternative]
  | .lambda params body => body.postorder ++ [.lambda params body]
  | .apply callee args => callee.postorder ++ postorderAll args ++ [.apply callee args]

/-- The post-orders of expressions, one after the other. -/
def postorderAll : List (Expr ν) → List (Expr ν)
  | [] => []
  | e :: rest => e.postorder ++ postorderAll rest

end

@[simp]
theorem postorderAll_eq_flatMap (es : List (Expr ν)) : postorderAll es = es.flatMap postorder := by
  induction es with
  | nil => rfl
  | cons e es ih => rw [postorderAll, ih, List.flatMap_cons]

end Expr

namespace Arena

variable {a b c : Arena} {id n : NodeId} {ids js : List NodeId} {first middle stop : Nat}

section Blocks

/-- A node stands below another one or is this node. -/
def Below (a : Arena) (id n : NodeId) : Prop := Relation.ReflTransGen a.IsChild id n

/-- The nodes of a subtree are those from `first` to the root of the subtree. -/
structure Block (a : Arena) (first : Nat) (id : NodeId) : Prop where
  first_le : first ≤ id.index
  below_iff : ∀ n, a.Below id n ↔ first ≤ n.index ∧ n.index ≤ id.index

/-- Subtrees stand one after the other, from `first` up to `stop`, without a gap. -/
def Blocks (a : Arena) (first : Nat) : List NodeId → Nat → Prop
  | [], stop => first = stop
  | id :: ids, stop => a.Block first id ∧ a.Blocks (id.index + 1) ids stop

theorem Blocks.append (h : a.Blocks first ids middle) (h' : a.Blocks middle js stop) :
    a.Blocks first (ids ++ js) stop := by
  induction ids generalizing first with
  | nil => obtain rfl : first = middle := h; exact h'
  | cons id ids ih => exact ⟨h.1, ih h.2⟩

theorem Blocks.first_le (h : a.Blocks first ids stop) : first ≤ stop := by
  induction ids generalizing first with
  | nil => exact Nat.le_of_eq h
  | cons id ids ih =>
      have hBlock := h.1.first_le
      have hRest := ih h.2
      omega

/-- The numbers between the ends are those below one of the roots. -/
theorem Blocks.exists_below_iff (h : a.Blocks first ids stop) :
    (∃ id ∈ ids, a.Below id n) ↔ first ≤ n.index ∧ n.index < stop := by
  induction ids generalizing first with
  | nil => obtain rfl : first = stop := h; simp
  | cons id ids ih =>
      have hFirst := h.1.first_le
      have hStop := Blocks.first_le h.2
      rw [List.exists_mem_cons_iff, h.1.below_iff, ih h.2]
      omega

/-- The roots come in increasing order. -/
theorem Blocks.increasing (h : a.Blocks first ids stop) :
    (ids.map NodeId.index).Pairwise (· < ·) ∧ ∀ id ∈ ids, first ≤ id.index := by
  induction ids generalizing first with
  | nil => simp
  | cons id ids ih =>
      obtain ⟨hRest, hFrom⟩ := ih h.2
      have hFirst := h.1.first_le
      rw [List.map_cons, List.pairwise_cons, List.forall_mem_map, List.forall_mem_cons]
      exact ⟨⟨hFrom, hRest⟩, hFirst, fun j hj => by have := hFrom j hj; omega⟩

/-- A node whose children's subtrees end just before it has a block for its subtree. -/
theorem Blocks.block {node : Node} (hNode : a.node? id = some node)
    (h : a.Blocks first (a.children node) id.index) : a.Block first id := by
  refine ⟨h.first_le, fun n => ?_⟩
  have hBelow : a.Below id n ↔ id = n ∨ ∃ child ∈ a.children node, a.Below child n := by
    rw [Below, Relation.ReflTransGen.cases_head_iff]
    refine or_congr_right ⟨?_, ?_⟩
    · rintro ⟨child, ⟨node', hNode', hMem⟩, hRest⟩
      obtain rfl := Option.some.inj (hNode.symm.trans hNode')
      exact ⟨child, hMem, hRest⟩
    · rintro ⟨child, hMem, hRest⟩
      exact ⟨child, ⟨node, hNode, hMem⟩, hRest⟩
  have hSame : id = n ↔ id.index = n.index := ⟨congrArg _, fun h => congrArg NodeId.mk h⟩
  have hFirst := h.first_le
  rw [hBelow, h.exists_below_iff, hSame]
  omega

/-- What is below a node stays so when the arena grows. -/
theorem WellFormed.below_iff_of_extends (h : a.WellFormed) (hExtends : a.Extends b)
    (hId : id.index < a.size) : b.Below id n ↔ a.Below id n := by
  have hChild : ∀ {p child : NodeId}, p.index < a.size →
      (b.IsChild p child ↔ a.IsChild p child) := by
    intro p child hp
    obtain ⟨node, hNode⟩ := exists_node? hp
    simp only [IsChild, hNode, hExtends.node? _ _ hNode, Option.some.injEq, exists_eq_left',
      hExtends.children_eq (h.lists_within p node hNode)]
  constructor
  · intro hBelow
    suffices a.Below id n ∧ n.index < a.size from this.1
    induction hBelow with
    | refl => exact ⟨.refl, hId⟩
    | tail _ hLast ih =>
        have hLast := (hChild ih.2).1 hLast
        have hLater := h.index_le_of_below (ih.1.tail hLast)
        exact ⟨ih.1.tail hLast, by omega⟩
  · intro hBelow
    induction hBelow with
    | refl => exact .refl
    | tail hBelow hLast ih =>
        have hLater := h.index_le_of_below hBelow
        exact ih.tail ((hChild (by omega)).2 hLast)

theorem Blocks.of_extends (hBlocks : a.Blocks first ids stop) (h : a.WellFormed)
    (hExtends : a.Extends b) (hStop : stop ≤ a.size) : b.Blocks first ids stop := by
  induction ids generalizing first with
  | nil => exact hBlocks
  | cons id ids ih =>
      have hIndex : id.index < a.size := Nat.lt_of_lt_of_le (Blocks.first_le hBlocks.2) hStop
      refine ⟨⟨hBlocks.1.first_le, fun n => ?_⟩, ih hBlocks.2⟩
      rw [h.below_iff_of_extends hExtends hIndex, hBlocks.1.below_iff]

end Blocks

section Postorder

/-- The expressions of all nodes, in the order of their numbers. -/
def trees (a : Arena) : List (Option (Expr Name)) :=
  (List.range a.size).map fun k => a.tree? ⟨k⟩

/-- Nodes that are there already keep their expressions, whatever else is stored. -/
theorem WellFormed.trees_of_extends (h : a.WellFormed) (hExtends : a.Extends b)
    (hSize : b.size = a.size) : b.trees = a.trees := by
  rw [trees, hSize]
  refine List.map_congr_left fun k hk => ?_
  have hIndex : (⟨k⟩ : NodeId).index < a.size := List.mem_range.1 hk
  obtain ⟨e, hTree⟩ := h.exists_tree? hIndex
  rw [tree?_of_extends hExtends hTree, hTree]

theorem WellFormed.trees_alloc (h : a.WellFormed) {n : Node} {e : Expr Name}
    (hTree : (a.alloc n).2.tree? (a.alloc n).1 = some e) :
    (a.alloc n).2.trees = a.trees ++ [some e] := by
  have hSize : (a.alloc n).2.size = a.size + 1 := Array.size_push _
  rw [trees, hSize, List.range_succ, List.map_append, List.map_singleton]
  refine congrArg₂ (· ++ ·) (List.map_congr_left fun k hk => ?_) (congrArg ([·]) hTree)
  have hIndex : (⟨k⟩ : NodeId).index < a.size := List.mem_range.1 hk
  obtain ⟨e, hOld⟩ := h.exists_tree? hIndex
  rw [tree?_of_extends (extends_alloc a n) hOld, hOld]

/-- Expressions have been stored in post-order from one arena to another. -/
structure Sequenced (a : Arena) (es : List (Expr Name)) (ids : List NodeId) (b : Arena) : Prop
    extends a.Planted es ids b where
  trees_eq : b.trees = a.trees ++ (es.flatMap Expr.postorder).map some
  blocks : b.Blocks a.size ids b.size
  /-- The subtrees of a new node's children fill up the numbers before the node. -/
  children_blocks : ∀ id node, b.node? id = some node → a.size ≤ id.index →
    ∃ first, b.Blocks first (b.children node) id.index

namespace Sequenced

variable {es fs : List (Expr Name)}

theorem nil (h : a.WellFormed) : a.Sequenced [] [] a where
  toPlanted := .nil h
  trees_eq := (List.append_nil _).symm
  blocks := rfl
  children_blocks id node hNode hNew := absurd (index_lt_of_node? hNode) (by omega)

/-- The children of a node keep their blocks when the arena grows. -/
theorem children_blocks_of_extends (h : a.Sequenced es ids b) (hExtends : b.Extends c)
    {node : Node} (hNode : c.node? id = some node) (hNew : a.size ≤ id.index)
    (hOld : id.index < b.size) : ∃ first, c.Blocks first (c.children node) id.index := by
  obtain ⟨node', hNode'⟩ := exists_node? hOld
  obtain rfl := Option.some.inj ((hExtends.node? _ _ hNode').symm.trans hNode)
  obtain ⟨first, hBlocks⟩ := h.children_blocks id node' hNode' hNew
  rw [← hExtends.children_eq (h.wellFormed.lists_within id node' hNode')] at hBlocks
  exact ⟨first, hBlocks.of_extends h.wellFormed hExtends (Nat.le_of_lt hOld)⟩

theorem append (h : a.Sequenced es ids b) (h' : b.Sequenced fs js c) :
    a.Sequenced (es ++ fs) (ids ++ js) c where
  toPlanted := h.toPlanted.append h'.toPlanted
  trees_eq := by
    rw [h'.trees_eq, h.trees_eq, List.flatMap_append, List.map_append, List.append_assoc]
  blocks := (h.blocks.of_extends h.wellFormed h'.grows (Nat.le_refl _)).append h'.blocks
  children_blocks id node hNode hNew := by
    by_cases hOld : id.index < b.size
    · exact h.children_blocks_of_extends h'.grows hNode hNew hOld
    · exact h'.children_blocks id node hNode (Nat.le_of_not_lt hOld)

/-- Nothing is lost when only the lists of the arena grow. -/
theorem of_nodes_eq (h : a.Sequenced es ids b) (hExtends : b.Extends c)
    (hNodes : c.nodes = b.nodes) : a.Sequenced es ids c := by
  have hSize : c.size = b.size := congrArg Array.size hNodes
  refine ⟨h.toPlanted.of_nodes_eq hExtends hNodes, ?_, ?_, fun id node hNode hNew => ?_⟩
  · rw [h.wellFormed.trees_of_extends hExtends hSize, h.trees_eq]
  · rw [hSize]
    exact h.blocks.of_extends h.wellFormed hExtends (Nat.le_refl _)
  · have hOld := hSize ▸ index_lt_of_node? hNode
    exact h.children_blocks_of_extends hExtends hNode hNew hOld

/-- Expressions that have been stored become the children of a node. -/
theorem alloc {e : Expr Name} {node : Node} (h : a.Sequenced es ids b)
    (hChildren : b.children node = ids) (hLists : b.ListsWithin node)
    (hTree : b.Assembles b.tree? node e)
    (hParts : e.postorder = es.flatMap Expr.postorder ++ [e]) :
    a.Sequenced [e] [(b.alloc node).1] (b.alloc node).2 := by
  have hExtends := extends_alloc b node
  have hSize : (b.alloc node).2.size = b.size + 1 := Array.size_push _
  have hNode := node?_alloc b node
  have hBlocks : (b.alloc node).2.Blocks a.size ((b.alloc node).2.children node) b.size := by
    rw [children_alloc, hChildren]
    exact h.blocks.of_extends h.wellFormed hExtends (Nat.le_refl _)
  refine ⟨h.toPlanted.alloc hChildren hLists hTree, ?_, ?_, fun id m hm hNew => ?_⟩
  · rw [h.wellFormed.trees_alloc (tree?_alloc hTree), h.trees_eq, List.flatMap_singleton, hParts,
      List.map_append, List.append_assoc]
    rfl
  · exact ⟨Blocks.block hNode hBlocks, hSize.symm⟩
  · rcases eq_or_node?_of_alloc hm with hOld | ⟨rfl, rfl⟩
    · exact h.children_blocks_of_extends hExtends hm hNew (index_lt_of_node? hOld)
    · exact ⟨_, hBlocks⟩

/-- An atom has no parts. -/
theorem of_atom (h : a.WellFormed) {e : Expr Name} {node : Node}
    (hChildren : a.children node = []) (hLists : a.ListsWithin node)
    (hTree : a.Assembles a.tree? node e) (hParts : e.postorder = [e]) :
    a.Sequenced [e] [(a.alloc node).1] (a.alloc node).2 :=
  (nil h).alloc hChildren hLists hTree hParts

theorem lambda {params : List Name} {body : Expr Name} (h : a.Sequenced [body] [id] b) :
    let (span, c) := b.allocParams params
    let (lam, d) := c.alloc (.lambda span id)
    a.Sequenced [.lambda params body] [lam] d := by
  have hParams := params?_allocParams b params
  have hLists := h.of_nodes_eq (extends_allocParams b params) rfl
  have hTree := (List.forall₂_cons.1 hLists.trees).1
  exact hLists.alloc rfl (Span.within_of_slice? hParams) (.lambda hParams hTree)
    (by simp [Expr.postorder])

theorem apply {callee : Expr Name} {args : List (Expr Name)}
    (hCallee : a.Sequenced [callee] [id] b) (hArgs : b.Sequenced args ids c) :
    let (span, d) := c.allocArgs ids
    let (call, d) := d.alloc (.apply id span)
    a.Sequenced [.apply callee args] [call] d := by
  have hIds := args?_allocArgs c ids
  have hLists := (hCallee.append hArgs).of_nodes_eq (extends_allocArgs c ids) rfl
  obtain ⟨hTree, hTrees⟩ := List.forall₂_cons.1 hLists.trees
  have hChildren : (c.allocArgs ids).2.children (.apply id (c.allocArgs ids).1) = id :: ids := by
    rw [children, hIds, Option.getD_some]
  exact hLists.alloc hChildren (Span.within_of_slice? hIds) (.apply hTree hIds hTrees)
    (by simp [Expr.postorder])

theorem plantAll (hPlant : ∀ e ∈ es, ∀ a : Arena, a.WellFormed →
      a.Sequenced [e] [(a.plant e).1] (a.plant e).2) (h : a.WellFormed) :
    a.Sequenced es (a.plantAll es).1 (a.plantAll es).2 := by
  induction es generalizing a with
  | nil => exact nil h
  | cons e es ih =>
      obtain ⟨hHead, hTail⟩ := List.forall_mem_cons.1 hPlant
      have hFirst := hHead a h
      exact hFirst.append (ih hTail hFirst.wellFormed)

end Sequenced

/-- An expression is stored in post-order. -/
theorem sequenced (e : Expr Name) :
    ∀ a : Arena, a.WellFormed → a.Sequenced [e] [(a.plant e).1] (a.plant e).2 := by
  induction e with
  | number x => exact fun a h => .of_atom h rfl trivial (.number x) rfl
  | string s => exact fun a h => .of_atom h rfl trivial (.string s) rfl
  | bool b => exact fun a h => .of_atom h rfl trivial (.bool b) rfl
  | identifier name => exact fun a h => .of_atom h rfl trivial (.identifier name) rfl
  | conditional condition consequent alternative ihC ihT ihE =>
      intro a h
      have hC := ihC a h
      have hT := ihT _ hC.wellFormed
      have hE := ihE _ hT.wellFormed
      have hParts := (hC.append hT).append hE
      obtain ⟨hTreeC, hTreeT, hTreeE⟩ := by simpa using hParts.trees
      exact hParts.alloc rfl trivial (.conditional hTreeC hTreeT hTreeE)
        (by simp [Expr.postorder])
  | lambda params body ih => exact fun a h => (ih a h).lambda
  | apply callee args ihCallee ihArgs =>
      intro a h
      have hCallee := ihCallee a h
      exact hCallee.apply (.plantAll ihArgs hCallee.wellFormed)

/-- Storing an expression in a well-formed arena makes one node more that is asked for. -/
theorem planted (e : Expr Name) (a : Arena) (h : a.WellFormed) :
    a.Planted [e] [(a.plant e).1] (a.plant e).2 :=
  (sequenced e a h).toPlanted

end Postorder

end Arena

end ArrowLisp
