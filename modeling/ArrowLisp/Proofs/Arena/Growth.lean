import ArrowLisp.Proofs.Arena.WellFormed

/-!
What storing does to an arena. Everything that could be read before reads the same afterwards, what
has been stored can be read, and a node whose children and lists are there already keeps the arena
well formed.
-/

namespace ArrowLisp

section Slices

variable {α : Type}

theorem Span.within_of_slice? {s : Span} {xs : Array α} {l : List α} (h : s.slice? xs = some l) :
    s.start + s.length ≤ xs.size := by
  unfold Span.slice? at h
  split at h
  · assumption
  · cases h

theorem Span.slice?_append {s : Span} {xs : Array α} {l : List α} (ys : Array α)
    (h : s.slice? xs = some l) : s.slice? (xs ++ ys) = some l := by
  have hWithin := within_of_slice? h
  rw [← h, Span.slice?, Span.slice?, if_pos hWithin, if_pos (by simp; omega)]
  simp [Array.extract_append, show s.start + s.length - xs.size = 0 by omega]

theorem Span.slice?_end (xs : Array α) (l : List α) :
    (⟨xs.size, l.length⟩ : Span).slice? (xs ++ l.toArray) = some l := by
  simp [Span.slice?, Array.extract_append]

end Slices

namespace Arena

variable {a b : Arena} {n : Node} {id : NodeId}

theorem extends_alloc (a : Arena) (n : Node) : a.Extends (a.alloc n).2 := by
  refine ⟨fun id m h => ?_, fun _ _ h => h, fun _ _ h => h⟩
  rw [node?, alloc, Array.getElem?_push_lt (index_lt_of_node? h), ← h, node?,
    Array.getElem?_eq_getElem (index_lt_of_node? h)]

theorem extends_allocArgs (a : Arena) (ids : List NodeId) : a.Extends (a.allocArgs ids).2 :=
  ⟨fun _ _ h => h, fun _ _ h => Span.slice?_append _ h, fun _ _ h => h⟩

theorem extends_allocParams (a : Arena) (names : List Name) :
    a.Extends (a.allocParams names).2 :=
  ⟨fun _ _ h => h, fun _ _ h => h, fun _ _ h => Span.slice?_append _ h⟩

theorem node?_alloc (a : Arena) (n : Node) : (a.alloc n).2.node? (a.alloc n).1 = some n := by
  simp [alloc, node?]

theorem args?_allocArgs (a : Arena) (ids : List NodeId) :
    (a.allocArgs ids).2.args? (a.allocArgs ids).1 = some ids :=
  Span.slice?_end a.args ids

theorem params?_allocParams (a : Arena) (names : List Name) :
    (a.allocParams names).2.params? (a.allocParams names).1 = some names :=
  Span.slice?_end a.params names

/-- The nodes after a node has been stored are the nodes before and this one. -/
theorem eq_or_node?_of_alloc {m : Node} (h : (a.alloc n).2.node? id = some m) :
    a.node? id = some m ∨ id = (a.alloc n).1 ∧ m = n := by
  simp only [node?, alloc, Array.getElem?_push] at h
  split at h
  · next hLast => exact Or.inr ⟨congrArg NodeId.mk hLast, (Option.some.inj h).symm⟩
  · exact Or.inl h

theorem children_alloc (m : Node) : (a.alloc n).2.children m = a.children m := by
  cases m <;> rfl

/-- The children of a node whose list is within reach do not change. -/
theorem Extends.children_eq (h : a.Extends b) (hLists : a.ListsWithin n) :
    b.children n = a.children n := by
  cases n with
  | apply callee span =>
      obtain ⟨ids, hIds⟩ := hLists.exists_args?
      simp only [children, hIds, h.args? span ids hIds]
  | _ => rfl

theorem Extends.listsWithin (h : a.Extends b) (hLists : a.ListsWithin n) : b.ListsWithin n := by
  cases n with
  | apply callee span =>
      obtain ⟨ids, hIds⟩ := hLists.exists_args?
      exact Span.within_of_slice? (h.args? span ids hIds)
  | lambda span body =>
      obtain ⟨names, hNames⟩ := hLists.exists_params?
      exact Span.within_of_slice? (h.params? span names hNames)
  | _ => trivial

/-- Longer lists do no harm. -/
theorem WellFormed.of_nodes_eq (h : a.WellFormed) (hExtends : a.Extends b)
    (hNodes : b.nodes = a.nodes) : b.WellFormed := by
  refine ⟨fun id n hNode child hChild => ?_, fun id n hNode => ?_⟩ <;>
    rw [node?, hNodes] at hNode
  · rw [hExtends.children_eq (h.lists_within id n hNode)] at hChild
    exact h.children_lt id n hNode child hChild
  · exact hExtends.listsWithin (h.lists_within id n hNode)

/-- A node may be stored once its children and its list are. -/
theorem WellFormed.alloc (h : a.WellFormed)
    (hChildren : ∀ child ∈ a.children n, child.index < a.size) (hLists : a.ListsWithin n) :
    (a.alloc n).2.WellFormed := by
  refine ⟨fun id m hNode child hChild => ?_, fun id m hNode => ?_⟩ <;>
    rcases eq_or_node?_of_alloc hNode with hOld | ⟨rfl, rfl⟩
  · exact h.children_lt id m hOld child (children_alloc m ▸ hChild)
  · exact hChildren child (children_alloc m ▸ hChild)
  · exact (extends_alloc a n).listsWithin (h.lists_within id m hOld)
  · exact (extends_alloc a m).listsWithin hLists

theorem wellFormed_empty : empty.WellFormed :=
  ⟨fun _ _ h => absurd (index_lt_of_node? h) (Nat.not_lt_zero _),
    fun _ _ h => absurd (index_lt_of_node? h) (Nat.not_lt_zero _)⟩

/-- The new node stands for the expression that is made of those of its children. -/
theorem tree?_alloc {e : Expr Name} (h : a.Assembles a.tree? n e) :
    (a.alloc n).2.tree? (a.alloc n).1 = some e := by
  have hSize : (a.alloc n).2.size = a.size + 1 := Array.size_push _
  rw [tree?, hSize]
  refine Option.bind_eq_some_iff.2 ⟨n, node?_alloc a n, assemble?_eq_some_iff.2 ?_⟩
  exact h.mono (extends_alloc a n) fun _ _ hTree =>
    treeWithin?_mono (extends_alloc a n) (Nat.le_refl _) hTree

/-- How often a node is referred to as a child. -/
def references (a : Arena) (id : NodeId) : Nat := (a.nodes.toList.flatMap a.children).count id

theorem references_alloc (a : Arena) (n : Node) (id : NodeId) :
    (a.alloc n).2.references id = a.references id + (a.children n).count id := by
  have hChildren : (a.alloc n).2.children = a.children := funext children_alloc
  have hNodes : (a.alloc n).2.nodes = a.nodes.push n := rfl
  rw [references, hChildren, hNodes]
  simp [references]

theorem WellFormed.references_eq (h : a.WellFormed) (hExtends : a.Extends b)
    (hNodes : b.nodes = a.nodes) (id : NodeId) : b.references id = a.references id := by
  have hChildren : ∀ n ∈ a.nodes.toList, b.children n = a.children n := by
    intro n hMem
    obtain ⟨i, hNode⟩ := List.mem_iff_getElem?.1 hMem
    exact hExtends.children_eq (h.lists_within ⟨i⟩ n (by simpa [node?] using hNode))
  simp only [references, hNodes, List.flatMap, List.map_congr_left hChildren]

end Arena

end ArrowLisp
