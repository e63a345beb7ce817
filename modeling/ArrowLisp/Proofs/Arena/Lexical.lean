import ArrowLisp.Proofs.Arena.Growth
import Mathlib.Data.Set.Card
import Mathlib.Logic.Relation

/-!
The lambdas around a node. In an arena in which every node has at most one parent, the lambdas whose
bodies contain a node are those whose bodies contain its parent, and the parent itself if that is a
lambda.
-/

namespace ArrowLisp.Arena

variable {a : Arena} {lam p q n child : NodeId}

/-- One node refers to the other. -/
def IsChild (a : Arena) (parent child : NodeId) : Prop :=
  ∃ node, a.node? parent = some node ∧ child ∈ a.children node

/-- A node is a lambda and its body contains a node, at any depth. -/
def Encloses (a : Arena) (lam n : NodeId) : Prop :=
  ∃ span body, a.node? lam = some (.lambda span body) ∧ Relation.ReflTransGen a.IsChild body n

/-- A name is among the parameters of a lambda. -/
def Declares (a : Arena) (lam : NodeId) (x : Name) : Prop :=
  ∃ span body params, a.node? lam = some (.lambda span body) ∧ a.params? span = some params ∧
    x ∈ params

/-- The number of lambdas whose bodies contain a node. -/
noncomputable def lexicalDepth (a : Arena) (n : NodeId) : Nat := {lam | a.Encloses lam n}.ncard

/-- No node is the child of two. -/
def UniqueParents (a : Arena) : Prop := ∀ p q child, a.IsChild p child → a.IsChild q child → p = q

theorem uniqueParents_of_references_le (h : ∀ id, a.references id ≤ 1) : a.UniqueParents := by
  have hNodup : (a.nodes.toList.flatMap a.children).Nodup := List.nodup_iff_count_le_one.2 h
  have hDisjoint := (List.nodup_flatMap.1 hNodup).2
  rw [List.pairwise_iff_getElem] at hDisjoint
  rintro ⟨i⟩ ⟨j⟩ child ⟨n, hn, hChild⟩ ⟨m, hm, hChild'⟩
  obtain ⟨hi, rfl⟩ := Array.getElem?_eq_some_iff.1 hn
  obtain ⟨hj, rfl⟩ := Array.getElem?_eq_some_iff.1 hm
  rcases Nat.lt_trichotomy i j with hLt | rfl | hLt
  · have hApart := hDisjoint i j (by simpa using hi) (by simpa using hj) hLt
    exact absurd hChild' (hApart (by simpa using hChild))
  · rfl
  · have hApart := hDisjoint j i (by simpa using hj) (by simpa using hi) hLt
    exact absurd hChild (hApart (by simpa using hChild'))

namespace WellFormed

theorem index_le_of_below (h : a.WellFormed) (hBelow : Relation.ReflTransGen a.IsChild p n) :
    n.index ≤ p.index := by
  induction hBelow with
  | refl => exact Nat.le_refl _
  | tail _ hChild ih =>
      obtain ⟨node, hNode, hMem⟩ := hChild
      exact Nat.le_trans (Nat.le_of_lt (h.children_lt _ node hNode _ hMem)) ih

theorem index_lt_of_encloses (h : a.WellFormed) (hEncloses : a.Encloses lam n) :
    n.index < lam.index := by
  obtain ⟨span, body, hNode, hBelow⟩ := hEncloses
  have hBody := h.children_lt lam _ hNode body (List.mem_singleton_self body)
  exact Nat.lt_of_le_of_lt (h.index_le_of_below hBelow) hBody

/-- No lambda has the last node in its body. -/
theorem not_encloses_last (h : a.WellFormed) (hLast : n.index + 1 = a.size) :
    ¬a.Encloses lam n := by
  intro hEncloses
  have hLt := h.index_lt_of_encloses hEncloses
  obtain ⟨span, body, hNode, -⟩ := hEncloses
  have hSize := index_lt_of_node? hNode
  omega

end WellFormed

/-- What encloses a node encloses its parent or is a lambda with the node as its body. -/
theorem encloses_iff_of_isChild (hUnique : a.UniqueParents) (hChild : a.IsChild p n) :
    a.Encloses lam n ↔ (∃ span, a.node? lam = some (.lambda span n)) ∨ a.Encloses lam p := by
  constructor
  · rintro ⟨span, body, hNode, hBelow⟩
    rcases Relation.ReflTransGen.cases_tail hBelow with rfl | ⟨q, hBelow, hLast⟩
    · exact Or.inl ⟨span, hNode⟩
    · obtain rfl := hUnique q p n hLast hChild
      exact Or.inr ⟨span, body, hNode, hBelow⟩
  · rintro (⟨span, hNode⟩ | ⟨span, body, hNode, hBelow⟩)
    · exact ⟨span, n, hNode, .refl⟩
    · exact ⟨span, body, hNode, hBelow.tail hChild⟩

/-- Between a node that is no lambda and its children is no lambda. -/
theorem encloses_iff_of_not_lambda (hUnique : a.UniqueParents) {node : Node}
    (hNode : a.node? p = some node) (hMem : n ∈ a.children node)
    (hOther : ∀ span body, node ≠ .lambda span body) : a.Encloses lam n ↔ a.Encloses lam p := by
  have hChild : a.IsChild p n := ⟨node, hNode, hMem⟩
  rw [encloses_iff_of_isChild hUnique hChild]
  refine or_iff_right ?_
  rintro ⟨span, hLambda⟩
  obtain rfl := hUnique lam p n ⟨_, hLambda, List.mem_singleton_self n⟩ hChild
  exact hOther span n (Option.some.inj (hNode.symm.trans hLambda))

/-- Around the body of a lambda are the lambda and what is around it. -/
theorem encloses_body_iff (hUnique : a.UniqueParents) {span : Span} {body : NodeId}
    (hNode : a.node? p = some (.lambda span body)) :
    a.Encloses lam body ↔ lam = p ∨ a.Encloses lam p := by
  have hChild : a.IsChild p body := ⟨_, hNode, List.mem_singleton_self body⟩
  rw [encloses_iff_of_isChild hUnique hChild]
  refine or_congr_left ⟨?_, ?_⟩
  · rintro ⟨span, hLambda⟩
    exact hUnique lam p body ⟨_, hLambda, List.mem_singleton_self body⟩ hChild
  · rintro rfl
    exact ⟨span, hNode⟩

end ArrowLisp.Arena
