import ArrowLisp.Arena.Tree
import Mathlib.Data.List.Forall2

/-!
Arenas whose nodes can all be read as expressions. Children have smaller numbers than the node
that refers to them and the lists of a node lie within the lists of the arena; then every node of
the arena stands for a tree. An arena that grows keeps the trees that it has.
-/

namespace ArrowLisp

/-- Partners of all elements make a list of partners. -/
theorem exists_forall₂ {α β : Type} {R : α → β → Prop} {l : List α}
    (h : ∀ x ∈ l, ∃ y, R x y) : ∃ l', List.Forall₂ R l l' := by
  induction l with
  | nil => exact ⟨[], .nil⟩
  | cons x l ih =>
      obtain ⟨y, hy⟩ := h x List.mem_cons_self
      obtain ⟨l', hl'⟩ := ih fun z hz => h z (List.mem_cons_of_mem x hz)
      exact ⟨y :: l', .cons hy hl'⟩

namespace Arena

/-- The children of a node. Those of a call are its callee and the arguments within reach. -/
def children (a : Arena) : Node → List NodeId
  | .number _ | .string _ | .bool _ | .identifier _ => []
  | .conditional condition consequent alternative => [condition, consequent, alternative]
  | .lambda _ body => [body]
  | .apply callee args => callee :: (a.args? args).getD []

/-- Whether the stretch that a node has of a shared list ends within this list. -/
def ListsWithin (a : Arena) : Node → Prop
  | .lambda params _ => params.start + params.length ≤ a.params.size
  | .apply _ args => args.start + args.length ≤ a.args.size
  | .number _ | .string _ | .bool _ | .identifier _ | .conditional _ _ _ => True

/-- Children come before the node that refers to them, and no list is out of reach. -/
structure WellFormed (a : Arena) : Prop where
  children_lt : ∀ id n, a.node? id = some n → ∀ child ∈ a.children n, child.index < id.index
  lists_within : ∀ id n, a.node? id = some n → a.ListsWithin n

/-- What can be read in the first arena reads the same in the second. -/
structure Extends (a b : Arena) : Prop where
  node? : ∀ id n, a.node? id = some n → b.node? id = some n
  args? : ∀ s ids, a.args? s = some ids → b.args? s = some ids
  params? : ∀ s names, a.params? s = some names → b.params? s = some names

theorem Extends.refl (a : Arena) : a.Extends a :=
  ⟨fun _ _ h => h, fun _ _ h => h, fun _ _ h => h⟩

theorem Extends.trans {a b c : Arena} (hab : a.Extends b) (hbc : b.Extends c) : a.Extends c :=
  ⟨fun id n h => hbc.node? id n (hab.node? id n h),
    fun s ids h => hbc.args? s ids (hab.args? s ids h),
    fun s names h => hbc.params? s names (hab.params? s names h)⟩

theorem index_lt_of_node? {a : Arena} {id : NodeId} {n : Node} (h : a.node? id = some n) :
    id.index < a.size :=
  (Array.getElem?_eq_some_iff.1 h).1

theorem exists_node? {a : Arena} {id : NodeId} (h : id.index < a.size) :
    ∃ n, a.node? id = some n :=
  ⟨a.nodes[id.index], Array.getElem?_eq_getElem h⟩

theorem Extends.size_le {a b : Arena} (h : a.Extends b) : a.size ≤ b.size := by
  by_contra hLt
  have hIndex : (⟨b.size⟩ : NodeId).index < a.size := Nat.lt_of_not_le hLt
  obtain ⟨n, hn⟩ := exists_node? hIndex
  exact absurd (index_lt_of_node? (h.node? _ _ hn)) (Nat.lt_irrefl _)

theorem ListsWithin.exists_args? {a : Arena} {callee : NodeId} {span : Span}
    (h : a.ListsWithin (.apply callee span)) : ∃ ids, a.args? span = some ids :=
  ⟨_, if_pos h⟩

theorem ListsWithin.exists_params? {a : Arena} {span : Span} {body : NodeId}
    (h : a.ListsWithin (.lambda span body)) : ∃ params, a.params? span = some params :=
  ⟨_, if_pos h⟩

/-- What the node of an expression is, given the expressions of all numbers. -/
inductive Assembles (a : Arena) (child? : NodeId → Option (Expr Name)) :
    Node → Expr Name → Prop where
  | number (x : Float) : Assembles a child? (.number x) (.number x)
  | string (s : String) : Assembles a child? (.string s) (.string s)
  | bool (b : Bool) : Assembles a child? (.bool b) (.bool b)
  | identifier (name : Name) : Assembles a child? (.identifier name) (.identifier name)
  | conditional {c t e : NodeId} {condition consequent alternative : Expr Name}
      (hCondition : child? c = some condition) (hConsequent : child? t = some consequent)
      (hAlternative : child? e = some alternative) :
      Assembles a child? (.conditional c t e) (.conditional condition consequent alternative)
  | lambda {span : Span} {params : List Name} {id : NodeId} {body : Expr Name}
      (hParams : a.params? span = some params) (hBody : child? id = some body) :
      Assembles a child? (.lambda span id) (.lambda params body)
  | apply {id : NodeId} {callee : Expr Name} {span : Span} {ids : List NodeId}
      {args : List (Expr Name)} (hCallee : child? id = some callee)
      (hIds : a.args? span = some ids)
      (hArgs : List.Forall₂ (fun id e => child? id = some e) ids args) :
      Assembles a child? (.apply id span) (.apply callee args)

theorem mapM_eq_some_iff {child? : NodeId → Option (Expr Name)} {ids : List NodeId}
    {es : List (Expr Name)} :
    ids.mapM child? = some es ↔ List.Forall₂ (fun id e => child? id = some e) ids es := by
  induction ids generalizing es with
  | nil => simp [eq_comm]
  | cons id ids ih =>
      cases hChild : child? id with
      | none => simp [hChild, List.forall₂_cons_left_iff]
      | some e =>
          simp only [List.mapM_cons, hChild, List.forall₂_cons_left_iff, ← ih]
          cases ids.mapM child? <;> simp [eq_comm]

theorem assemble?_eq_some_iff {a : Arena} {child? : NodeId → Option (Expr Name)} {n : Node}
    {e : Expr Name} : a.assemble? child? n = some e ↔ a.Assembles child? n e := by
  constructor
  · intro h
    cases n with
    | number | string | bool | identifier => cases h; constructor
    | conditional c t e =>
        simp only [assemble?, Option.bind_eq_some_iff, Option.map_eq_some_iff] at h
        obtain ⟨condition, hC, consequent, hT, alternative, hE, rfl⟩ := h
        exact .conditional hC hT hE
    | lambda span id =>
        simp only [assemble?, Option.bind_eq_some_iff, Option.map_eq_some_iff] at h
        obtain ⟨params, hParams, body, hBody, rfl⟩ := h
        exact .lambda hParams hBody
    | apply id span =>
        simp only [assemble?, Option.bind_eq_some_iff, Option.map_eq_some_iff] at h
        obtain ⟨ids, hIds, callee, hCallee, args, hArgs, rfl⟩ := h
        exact .apply hCallee hIds (mapM_eq_some_iff.1 hArgs)
  · intro h
    cases h with
    | apply hCallee hIds hArgs => simp [assemble?, hCallee, hIds, mapM_eq_some_iff.2 hArgs]
    | _ => simp [assemble?, *]

theorem Assembles.mono {a b : Arena} {child? child'? : NodeId → Option (Expr Name)} {n : Node}
    {e : Expr Name} (h : a.Assembles child? n e) (hExtends : a.Extends b)
    (hChild : ∀ id e, child? id = some e → child'? id = some e) : b.Assembles child'? n e := by
  cases h with
  | number | string | bool | identifier => constructor
  | conditional hC hT hE => exact .conditional (hChild _ _ hC) (hChild _ _ hT) (hChild _ _ hE)
  | lambda hParams hBody => exact .lambda (hExtends.params? _ _ hParams) (hChild _ _ hBody)
  | apply hCallee hIds hArgs =>
      exact .apply (hChild _ _ hCallee) (hExtends.args? _ _ hIds)
        (hArgs.imp fun _ _ h => hChild _ _ h)

/-- More height and a larger arena do not change the expression of a node. -/
theorem treeWithin?_mono {a b : Arena} (hExtends : a.Extends b) {height height' : Nat}
    (hLe : height ≤ height') {id : NodeId} {e : Expr Name}
    (h : a.treeWithin? height id = some e) : b.treeWithin? height' id = some e := by
  induction height generalizing height' id e with
  | zero => simp [treeWithin?] at h
  | succ height ih =>
      obtain ⟨height', rfl⟩ : ∃ k, height' = k + 1 := ⟨height' - 1, by omega⟩
      obtain ⟨n, hNode, hTree⟩ := Option.bind_eq_some_iff.1 h
      have hAssembles := (assemble?_eq_some_iff.1 hTree).mono hExtends
        fun _ _ => ih (Nat.le_of_succ_le_succ hLe)
      exact Option.bind_eq_some_iff.2
        ⟨n, hExtends.node? id n hNode, assemble?_eq_some_iff.2 hAssembles⟩

/-- An arena that grows keeps the expressions of its nodes. -/
theorem tree?_of_extends {a b : Arena} (h : a.Extends b) {id : NodeId} {e : Expr Name}
    (hTree : a.tree? id = some e) : b.tree? id = some e :=
  treeWithin?_mono h h.size_le hTree

/-- A node that has an expression, and how the expression is made of those of its children. -/
theorem exists_assembles_of_tree? {a : Arena} {id : NodeId} {e : Expr Name}
    (h : a.tree? id = some e) : ∃ n, a.node? id = some n ∧ a.Assembles a.tree? n e := by
  rw [tree?] at h
  cases hSize : a.size with
  | zero => simp [hSize, treeWithin?] at h
  | succ height =>
      rw [hSize] at h
      obtain ⟨n, hNode, hTree⟩ := Option.bind_eq_some_iff.1 h
      refine ⟨n, hNode, (assemble?_eq_some_iff.1 hTree).mono (.refl a) fun child e hChild => ?_⟩
      exact treeWithin?_mono (.refl a) (by omega) hChild

section Inversion

variable {a : Arena} {id : NodeId}

theorem exists_conditional_of_tree? {condition consequent alternative : Expr Name}
    (h : a.tree? id = some (.conditional condition consequent alternative)) :
    ∃ c t e, a.node? id = some (.conditional c t e) ∧ a.tree? c = some condition ∧
      a.tree? t = some consequent ∧ a.tree? e = some alternative := by
  obtain ⟨n, hNode, hAssembles⟩ := exists_assembles_of_tree? h
  cases hAssembles with
  | conditional hC hT hE => exact ⟨_, _, _, hNode, hC, hT, hE⟩

theorem exists_lambda_of_tree? {params : List Name} {body : Expr Name}
    (h : a.tree? id = some (.lambda params body)) :
    ∃ span b, a.node? id = some (.lambda span b) ∧ a.params? span = some params ∧
      a.tree? b = some body := by
  obtain ⟨n, hNode, hAssembles⟩ := exists_assembles_of_tree? h
  cases hAssembles with
  | lambda hParams hBody => exact ⟨_, _, hNode, hParams, hBody⟩

theorem exists_apply_of_tree? {callee : Expr Name} {args : List (Expr Name)}
    (h : a.tree? id = some (.apply callee args)) :
    ∃ f span ids, a.node? id = some (.apply f span) ∧ a.tree? f = some callee ∧
      a.args? span = some ids ∧ List.Forall₂ (fun id e => a.tree? id = some e) ids args := by
  obtain ⟨n, hNode, hAssembles⟩ := exists_assembles_of_tree? h
  cases hAssembles with
  | apply hCallee hIds hArgs => exact ⟨_, _, _, hNode, hCallee, hIds, hArgs⟩

end Inversion

/-- A node whose list is within reach has an expression if its children have. -/
theorem ListsWithin.exists_assembles {a : Arena} {n : Node} {child? : NodeId → Option (Expr Name)}
    (h : a.ListsWithin n) (hChild : ∀ child ∈ a.children n, ∃ e, child? child = some e) :
    ∃ e, a.Assembles child? n e := by
  cases n with
  | number x => exact ⟨_, .number x⟩
  | string s => exact ⟨_, .string s⟩
  | bool b => exact ⟨_, .bool b⟩
  | identifier name => exact ⟨_, .identifier name⟩
  | conditional c t e =>
      obtain ⟨condition, hC⟩ := hChild c (by simp [children])
      obtain ⟨consequent, hT⟩ := hChild t (by simp [children])
      obtain ⟨alternative, hE⟩ := hChild e (by simp [children])
      exact ⟨_, .conditional hC hT hE⟩
  | lambda span body =>
      obtain ⟨params, hParams⟩ := h.exists_params?
      obtain ⟨body, hBody⟩ := hChild body (by simp [children])
      exact ⟨_, .lambda hParams hBody⟩
  | apply callee span =>
      obtain ⟨ids, hIds⟩ := h.exists_args?
      obtain ⟨callee, hCallee⟩ := hChild callee (by simp [children])
      have hEach : ∀ arg ∈ ids, ∃ e, child? arg = some e :=
        fun arg hArg => hChild arg (by simp [children, hIds, hArg])
      obtain ⟨args, hArgs⟩ := exists_forall₂ hEach
      exact ⟨_, .apply hCallee hIds hArgs⟩

/-- Nodes that refer only to smaller ones among themselves stand for expressions. -/
theorem exists_treeWithin?_of_closed {a : Arena} {P : NodeId → Prop}
    (hClosed : ∀ id, P id → ∃ n, a.node? id = some n ∧ a.ListsWithin n ∧
      ∀ child ∈ a.children n, P child ∧ child.index < id.index)
    (height : Nat) (id : NodeId) (hHeight : id.index < height) (hId : P id) :
    ∃ e, a.treeWithin? height id = some e := by
  induction height generalizing id with
  | zero => exact absurd hHeight (Nat.not_lt_zero _)
  | succ height ih =>
      obtain ⟨n, hNode, hLists, hChildren⟩ := hClosed id hId
      have hChild : ∀ child ∈ a.children n, ∃ e, a.treeWithin? height child = some e := by
        intro child hMem
        obtain ⟨hHere, hLt⟩ := hChildren child hMem
        exact ih child (by omega) hHere
      obtain ⟨e, hAssembles⟩ := hLists.exists_assembles hChild
      exact ⟨e, Option.bind_eq_some_iff.2 ⟨n, hNode, assemble?_eq_some_iff.2 hAssembles⟩⟩

namespace WellFormed

variable {a : Arena}

theorem exists_params? (h : a.WellFormed) {id body : NodeId} {span : Span}
    (hNode : a.node? id = some (.lambda span body)) : ∃ params, a.params? span = some params :=
  (h.lists_within id _ hNode).exists_params?

theorem exists_args? (h : a.WellFormed) {id callee : NodeId} {span : Span}
    (hNode : a.node? id = some (.apply callee span)) : ∃ ids, a.args? span = some ids :=
  (h.lists_within id _ hNode).exists_args?

/-- Every node of a well-formed arena stands for an expression. -/
theorem exists_tree? (h : a.WellFormed) {id : NodeId} (hId : id.index < a.size) :
    ∃ e, a.tree? id = some e := by
  refine exists_treeWithin?_of_closed (P := fun id => id.index < a.size) (fun id hSize => ?_)
    a.size id hId hId
  obtain ⟨n, hNode⟩ := exists_node? hSize
  refine ⟨n, hNode, h.lists_within id n hNode, fun child hChild => ?_⟩
  have hLt := h.children_lt id n hNode child hChild
  exact ⟨Nat.lt_trans hLt hSize, hLt⟩

end WellFormed

end Arena

end ArrowLisp
