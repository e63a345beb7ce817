import ArrowLisp.Proofs.Arena.Lexical
import ArrowLisp.Proofs.Expressions
import ArrowLisp.Value

/-!
Free names of nodes and of closures. Below a node a name is free where a way leads down to an
identifier past no lambda that declares the name; in an expression that has been read out of an
arena these are the free names of the expression. For a closure its parameters count as declared.
-/

namespace ArrowLisp

namespace Arena

variable {a : Arena} {x : Name} {id : NodeId}

/-- A name has a free occurrence below a node. Nothing is asked of the arena, in which nodes may
also be out of reach or below themselves. -/
inductive Free (a : Arena) (x : Name) : NodeId → Prop where
  | identifier {id : NodeId} (hNode : a.node? id = some (.identifier x)) : Free a x id
  | child {id child : NodeId} (hChild : a.IsChild id child) (hDeclares : ¬a.Declares id x)
      (h : Free a x child) : Free a x id

theorem declares_iff {span : Span} {body : NodeId} {params : List Name}
    (hNode : a.node? id = some (.lambda span body)) (hParams : a.params? span = some params) :
    a.Declares id x ↔ x ∈ params := by
  constructor
  · rintro ⟨span', body', params', hNode', hParams', hMem⟩
    cases hNode.symm.trans hNode'
    cases hParams.symm.trans hParams'
    exact hMem
  · exact fun hMem => ⟨span, body, params, hNode, hParams, hMem⟩

theorem not_declares {node : Node} (hNode : a.node? id = some node)
    (hOther : ∀ span body, node ≠ .lambda span body) : ¬a.Declares id x := by
  rintro ⟨span, body, -, hLambda, -⟩
  exact hOther span body (Option.some.inj (hNode.symm.trans hLambda))

theorem free_iff {node : Node} (hNode : a.node? id = some node) :
    a.Free x id ↔ node = .identifier x ∨ (∃ child ∈ a.children node, a.Free x child) ∧
      ¬a.Declares id x := by
  constructor
  · intro h
    cases h with
    | identifier hIdentifier => exact .inl (Option.some.inj (hNode.symm.trans hIdentifier))
    | @child _ child hChild hDeclares h =>
        obtain ⟨node', hNode', hMem⟩ := hChild
        cases hNode.symm.trans hNode'
        exact .inr ⟨⟨child, hMem, h⟩, hDeclares⟩
  · rintro (rfl | ⟨⟨child, hMem, h⟩, hDeclares⟩)
    · exact .identifier hNode
    · exact .child ⟨node, hNode, hMem⟩ hDeclares h

/-- What is free in a part of a node that is no lambda is free in the node. -/
theorem Free.of_child {node : Node} {child : NodeId} (h : a.Free x child)
    (hNode : a.node? id = some node) (hOther : ∀ span body, node ≠ .lambda span body)
    (hMem : child ∈ a.children node) : a.Free x id :=
  .child ⟨node, hNode, hMem⟩ (not_declares hNode hOther) h

/-- What is free in the body of a lambda is free in the lambda, the parameters apart. -/
theorem Free.of_body {span : Span} {body : NodeId} {params : List Name} (h : a.Free x body)
    (hNode : a.node? id = some (.lambda span body)) (hParams : a.params? span = some params)
    (hOther : x ∉ params) : a.Free x id :=
  .child ⟨_, hNode, List.mem_singleton_self body⟩
    (fun hDeclares => hOther ((declares_iff hNode hParams).1 hDeclares)) h

/-- The names that are free below a node are those of its expression. -/
theorem free_iff_of_tree? {e : Expr Name} (hTree : a.tree? id = some e) :
    a.Free x id ↔ e.Free x := by
  induction e generalizing id with
  | number | string | bool =>
      obtain ⟨node, hNode, hAssembles⟩ := exists_assembles_of_tree? hTree
      cases hAssembles
      have hNone : ¬a.Free x id := by simp [free_iff hNode, children]
      exact iff_of_false hNone fun h => by cases h
  | identifier name =>
      obtain ⟨node, hNode, hAssembles⟩ := exists_assembles_of_tree? hTree
      cases hAssembles
      simp [free_iff hNode, children, Expr.free_identifier_iff]
  | conditional _ _ _ ihC ihT ihE =>
      obtain ⟨c, t, e, hNode, hC, hT, hE⟩ := exists_conditional_of_tree? hTree
      rw [free_iff hNode, Expr.free_conditional_iff, ← ihC hC, ← ihT hT, ← ihE hE]
      simp [children, not_declares hNode]
  | lambda params body ih =>
      obtain ⟨span, b, hNode, hParams, hBody⟩ := exists_lambda_of_tree? hTree
      rw [free_iff hNode, Expr.free_lambda_iff, ← ih hBody, declares_iff hNode hParams]
      simp [children, and_comm]
  | apply callee args ihCallee ihArgs =>
      obtain ⟨f, span, ids, hNode, hCallee, hIds, hArgs⟩ := exists_apply_of_tree? hTree
      have hSame : (∃ arg ∈ ids, a.Free x arg) ↔ ∃ arg ∈ args, arg.Free x := by
        clear hIds hNode hTree
        induction hArgs with
        | nil => simp
        | cons hHead _ ih =>
            obtain ⟨ihHead, ihTail⟩ := List.forall_mem_cons.1 ihArgs
            simp [ihHead hHead, ih ihTail]
      rw [free_iff hNode, Expr.free_apply_iff, ← ihCallee hCallee, ← hSame]
      simp [children, hIds, not_declares hNode]

end Arena

/-- A name that is free in the body of a closure and none of its parameters. -/
def Closure.Free (c : Closure Value) (x : Name) : Prop := c.arena.Free x c.body ∧ x ∉ c.params

end ArrowLisp
