import ArrowLisp.Proofs.Arena.Postorder

/-!
The history of an arena. Whatever is stored is read back under the number or the stretch that was
given for it, then and after anything else has been stored. Hence a node below which every number
leads back, and every list is within reach, keeps its expression and its text.
-/

namespace ArrowLisp.Arena

variable {a b : Arena} {id : NodeId}

/-- How many entries there are 32-bit numbers for. -/
def capacity : Nat := 0x100000000

/-- What an arena takes up at once. -/
inductive Entry where
  | node (n : Node)
  | args (ids : List NodeId)
  | params (names : List Name)

/-- What an arena gives for an entry. -/
inductive Handle where
  | node (id : NodeId)
  | args (span : Span)
  | params (span : Span)

/-- Store an entry after all others. -/
def store (a : Arena) : Entry → Handle × Arena
  | .node n => let (id, a) := a.alloc n; (.node id, a)
  | .args ids => let (span, a) := a.allocArgs ids; (.args span, a)
  | .params names => let (span, a) := a.allocParams names; (.params span, a)

/-- `store` within the capacity: a node needs a number, and a list one for its end as well. -/
def tryStore (a : Arena) (entry : Entry) : Option (Handle × Arena) :=
  let room :=
    match entry with
    | .node _ => a.size
    | .args ids => a.args.size + ids.length
    | .params names => a.params.size + names.length
  if room < capacity then some (a.store entry) else none

/-- Store entries from left to right. -/
def storeAll (a : Arena) : List Entry → List Handle × Arena
  | [] => ([], a)
  | entry :: rest =>
    let (handle, a) := a.store entry
    let (handles, a) := a.storeAll rest
    (handle :: handles, a)

/-- `storeAll` within the capacity. -/
def tryStoreAll (a : Arena) : List Entry → Option (List Handle × Arena)
  | [] => some ([], a)
  | entry :: rest => do
    let (handle, a) ← a.tryStore entry
    let (handles, a) ← a.tryStoreAll rest
    return (handle :: handles, a)

/-- The entry under a handle. -/
def read? (a : Arena) : Handle → Option Entry
  | .node id => (a.node? id).map .node
  | .args span => (a.args? span).map .args
  | .params span => (a.params? span).map .params

section Storing

theorem Extends.read? (h : a.Extends b) {handle : Handle} {entry : Entry}
    (hRead : a.read? handle = some entry) : b.read? handle = some entry := by
  cases handle with
  | node id =>
      obtain ⟨n, hNode, rfl⟩ := Option.map_eq_some_iff.1 hRead
      exact Option.map_eq_some_iff.2 ⟨n, h.node? id n hNode, rfl⟩
  | args span =>
      obtain ⟨ids, hIds, rfl⟩ := Option.map_eq_some_iff.1 hRead
      exact Option.map_eq_some_iff.2 ⟨ids, h.args? span ids hIds, rfl⟩
  | params span =>
      obtain ⟨names, hNames, rfl⟩ := Option.map_eq_some_iff.1 hRead
      exact Option.map_eq_some_iff.2 ⟨names, h.params? span names hNames, rfl⟩

theorem extends_store (a : Arena) (entry : Entry) : a.Extends (a.store entry).2 := by
  cases entry with
  | node n => exact extends_alloc a n
  | args ids => exact extends_allocArgs a ids
  | params names => exact extends_allocParams a names

theorem read?_store (a : Arena) (entry : Entry) :
    (a.store entry).2.read? (a.store entry).1 = some entry := by
  cases entry with
  | node n => exact congrArg (Option.map Entry.node) (node?_alloc a n)
  | args ids => exact congrArg (Option.map Entry.args) (args?_allocArgs a ids)
  | params names => exact congrArg (Option.map Entry.params) (params?_allocParams a names)

theorem extends_storeAll (a : Arena) (entries : List Entry) : a.Extends (a.storeAll entries).2 := by
  induction entries generalizing a with
  | nil => exact .refl a
  | cons entry rest ih => exact (a.extends_store entry).trans (ih _)

/-- Everything that has been stored is read back after the last entry. -/
theorem read?_storeAll (a : Arena) (entries : List Entry) :
    List.Forall₂ (fun handle entry => (a.storeAll entries).2.read? handle = some entry)
      (a.storeAll entries).1 entries := by
  induction entries generalizing a with
  | nil => exact .nil
  | cons entry rest ih =>
      exact .cons ((extends_storeAll _ rest).read? (a.read?_store entry)) (ih _)

theorem storeAll_append (a : Arena) (entries later : List Entry) :
    (a.storeAll (entries ++ later)).2 = ((a.storeAll entries).2.storeAll later).2 := by
  induction entries generalizing a with
  | nil => rfl
  | cons entry rest ih => exact ih _

end Storing

section Capacity

/-- There is a number for every node, and for the end of every stretch of a list. -/
structure Fits (a : Arena) : Prop where
  nodes : a.size ≤ capacity
  args : a.args.size < capacity
  params : a.params.size < capacity

theorem Fits.of_extends (h : b.Fits) (hExtends : a.Extends b) : a.Fits := by
  -- The empty stretch at the end of a list is still within the list when this has grown.
  have hArgs := hExtends.args? ⟨a.args.size, 0⟩ [] (by simp [args?, Span.slice?])
  have hParams := hExtends.params? ⟨a.params.size, 0⟩ [] (by simp [params?, Span.slice?])
  exact ⟨Nat.le_trans hExtends.size_le h.nodes,
    Nat.lt_of_le_of_lt (Span.within_of_slice? hArgs) h.args,
    Nat.lt_of_le_of_lt (Span.within_of_slice? hParams) h.params⟩

theorem tryStore_eq_some {entry : Entry} (h : (a.store entry).2.Fits) :
    a.tryStore entry = some (a.store entry) := by
  refine if_pos ?_
  cases entry with
  | node n =>
      have hSize : (a.store (.node n)).2.size = a.size + 1 := Array.size_push n
      exact Nat.lt_of_succ_le ((Nat.le_of_eq hSize.symm).trans h.nodes)
  | args ids => simpa [store, allocArgs] using h.args
  | params names => simpa [store, allocParams] using h.params

/-- No entry is refused if all of them fit. -/
theorem tryStoreAll_eq_some {entries : List Entry} (h : (a.storeAll entries).2.Fits) :
    a.tryStoreAll entries = some (a.storeAll entries) := by
  induction entries generalizing a with
  | nil => rfl
  | cons entry rest ih =>
      have hFirst := tryStore_eq_some (h.of_extends (extends_storeAll _ rest))
      have hRest : (a.store entry).2.tryStoreAll rest = some ((a.store entry).2.storeAll rest) :=
        ih h
      simp only [tryStoreAll, hFirst, Option.bind_eq_bind, Option.bind_some, hRest]
      rfl

end Capacity

/-- Below a node every number leads to a smaller one, and every list is within reach. -/
structure Grounded (a : Arena) (id : NodeId) : Prop where
  index_lt : id.index < a.size
  children_lt : ∀ n node, a.Below id n → a.node? n = some node →
    ∀ child ∈ a.children node, child.index < n.index
  lists_within : ∀ n node, a.Below id n → a.node? n = some node → a.ListsWithin node

theorem WellFormed.grounded (h : a.WellFormed) (hId : id.index < a.size) : a.Grounded id :=
  ⟨hId, fun n node _ => h.children_lt n node, fun n node _ => h.lists_within n node⟩

theorem Grounded.exists_tree? (h : a.Grounded id) : ∃ e, a.tree? id = some e := by
  refine exists_treeWithin?_of_closed (P := fun n => a.Below id n ∧ n.index < a.size)
    (fun n hn => ?_) a.size id h.index_lt ⟨.refl, h.index_lt⟩
  obtain ⟨hBelow, hSize⟩ := hn
  obtain ⟨node, hNode⟩ := exists_node? hSize
  refine ⟨node, hNode, h.lists_within n node hBelow hNode, fun child hChild => ?_⟩
  have hLt := h.children_lt n node hBelow hNode child hChild
  exact ⟨⟨hBelow.tail ⟨node, hNode, hChild⟩, Nat.lt_trans hLt hSize⟩, hLt⟩

/-- As long as there are numbers for all of them, no entry is refused, and everything is read back
under the handle that was given for it, whatever has been stored since. A node in order below keeps
its expression, and the text of the node is the text of this expression. -/
theorem retains_history (entries later : List Entry)
    (hRoom : (empty.storeAll (entries ++ later)).2.Fits) :
    ∃ handles a handles' b,
      empty.tryStoreAll entries = some (handles, a) ∧ a.tryStoreAll later = some (handles', b) ∧
      List.Forall₂ (fun handle entry =>
        a.read? handle = some entry ∧ b.read? handle = some entry) handles entries ∧
      ∀ id, a.Grounded id → ∃ e, a.tree? id = some e ∧ b.tree? id = some e ∧
        ∀ names : Interner, a.display? names id = some (e.map names.lookup).text ∧
          b.display? names id = some (e.map names.lookup).text := by
  rw [storeAll_append] at hRoom
  have hGrows := extends_storeAll (empty.storeAll entries).2 later
  refine ⟨_, _, _, _, tryStoreAll_eq_some (hRoom.of_extends hGrows), tryStoreAll_eq_some hRoom,
    (read?_storeAll empty entries).imp fun _ _ hRead => ⟨hRead, hGrows.read? hRead⟩,
    fun id hGrounded => ?_⟩
  obtain ⟨e, hTree⟩ := hGrounded.exists_tree?
  have hLater := tree?_of_extends hGrows hTree
  refine ⟨e, hTree, hLater, fun names => ?_⟩
  rw [display?_eq_text, display?_eq_text, hTree, hLater]
  exact ⟨rfl, rfl⟩

/-- A call without arguments, whose stretch stands at the very end of the list. -/
theorem retains_history_empty_stretch :
    let entries : List Entry := [.node (.identifier ⟨0⟩), .args [], .node (.apply ⟨0⟩ ⟨0, 0⟩)]
    let later : List Entry := [.args [⟨1⟩], .params [⟨0⟩], .node (.lambda ⟨0, 1⟩ ⟨1⟩)]
    let a := (empty.storeAll entries).2
    (empty.storeAll (entries ++ later)).2.Fits ∧ a.Grounded ⟨1⟩ ∧
      ∃ handles' b, a.tryStoreAll later = some (handles', b) ∧
        b.read? (.args ⟨0, 0⟩) = some (.args []) ∧
        b.display? (Interner.empty.intern "x").2 ⟨1⟩ = some "(x)" := by
  intro entries later a
  have hRoom : (empty.storeAll (entries ++ later)).2.Fits := ⟨by decide, by decide, by decide⟩
  have hStored : empty.tryStoreAll entries = some ([.node ⟨0⟩, .args ⟨0, 0⟩, .node ⟨1⟩], a) := rfl
  have hTree : a.tree? ⟨1⟩ = some (.apply (.identifier ⟨0⟩) []) := rfl
  have hWell : a.WellFormed := by
    have hFirst : (empty.alloc (.identifier ⟨0⟩)).2.WellFormed :=
      wellFormed_empty.alloc (by simp [children]) trivial
    have hLists := hFirst.of_nodes_eq (extends_allocArgs _ []) rfl
    exact hLists.alloc (by decide) (Nat.le_refl 0)
  have hGrounded : a.Grounded ⟨1⟩ := hWell.grounded (by decide)
  obtain ⟨handles, a', handles', b, hFirst, hLater, hReads, hKeeps⟩ :=
    retains_history entries later hRoom
  cases hStored.symm.trans hFirst
  obtain ⟨e, hSame, -, hTexts⟩ := hKeeps ⟨1⟩ hGrounded
  cases hTree.symm.trans hSame
  obtain ⟨-, ⟨-, hArgs⟩, -⟩ := by simpa only [entries, List.forall₂_cons] using hReads
  exact ⟨hRoom, hGrounded, handles', b, hLater, hArgs, (hTexts _).2⟩

end ArrowLisp.Arena
