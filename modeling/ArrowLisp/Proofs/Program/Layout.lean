import ArrowLisp.Proofs.Arena.Lists
import ArrowLisp.Proofs.Arena.Postorder
import ArrowLisp.Proofs.Program.Canonical

/-!
The layout of programs. The arena of a program that has been read is one expression in post-order
and nothing else: no node is missing, shared or left over, and the lists of the nodes are cut out of
the shared lists in the order of the nodes.
-/

namespace ArrowLisp

namespace Expr

theorem postorder_map {ν μ : Type} (f : ν → μ) (e : Expr ν) :
    (e.map f).postorder = e.postorder.map (map f) := by
  induction e with
  | apply callee args ihCallee ihArgs =>
      simp only [map, mapAll_eq_map, postorder, postorderAll_eq_flatMap, List.map_append, ihCallee,
        List.flatMap_map, List.map_flatMap, List.map_singleton]
      rw [List.flatMap_def, List.map_congr_left ihArgs, ← List.flatMap_def]
  | _ => simp [map, postorder, *]

/-- The parts of a canonical expression are canonical. -/
theorem Canonical.of_mem_postorder {e part : Expr String} (h : e.Canonical)
    (hPart : part ∈ e.postorder) : part.Canonical := by
  induction h with
  | number | string | bool | identifier =>
      obtain rfl := List.mem_singleton.1 hPart
      constructor
  | conditional hCondition hConsequent hAlternative ihC ihT ihE =>
      simp only [postorder, List.mem_append, List.mem_singleton] at hPart
      rcases hPart with ((hC | hT) | hE) | rfl
      · exact ihC hC
      · exact ihT hT
      · exact ihE hE
      · exact .conditional hCondition hConsequent hAlternative
  | lambda hSome hIf hBody ih =>
      simp only [postorder, List.mem_append, List.mem_singleton] at hPart
      rcases hPart with hBelow | rfl
      · exact ih hBelow
      · exact .lambda hSome hIf hBody
  | apply hIf hArrow hCallee hArgs ihCallee ihArgs =>
      simp only [postorder, postorderAll_eq_flatMap, List.mem_append, List.mem_flatMap,
        List.mem_singleton] at hPart
      rcases hPart with (hBelow | ⟨arg, hArg, hBelow⟩) | rfl
      · exact ihCallee hBelow
      · exact ihArgs arg hArg hBelow
      · exact .apply hIf hArrow hCallee hArgs

end Expr

namespace Arena

/-- A lambda with a canonical expression has parameters. -/
theorem length_pos_of_canonical {a : Arena} {id body : NodeId} {span : Span} {e : Expr Name}
    {f : Name → String} (hNode : a.node? id = some (.lambda span body))
    (hTree : a.tree? id = some e) (hCanonical : (e.map f).Canonical) : 0 < span.length := by
  obtain ⟨n, hSame, hAssembles⟩ := exists_assembles_of_tree? hTree
  obtain rfl := Option.some.inj (hNode.symm.trans hSame)
  cases hAssembles with
  | @lambda _ params _ body hParams hBody =>
      cases hCanonical with
      | lambda hSome =>
          have hLength := Span.length_of_slice? hParams
          have hPos := List.length_pos_of_ne_nil hSome
          rw [List.length_map] at hPos
          omega

/-- An arena that holds one expression in post-order, and nothing else. -/
structure LaidOut (a : Arena) (root : NodeId) : Prop where
  /-- The nodes stand for the root's expression and all below it, each after its own parts. -/
  postorder : ∃ e, a.tree? root = some e ∧ a.trees = e.postorder.map some
  root_last : root.index + 1 = a.size
  /-- Children come in the order of the source, and before the node that refers to them. -/
  increasing : ∀ id n, a.node? id = some n →
    ((a.children n).map NodeId.index).Pairwise (· < ·) ∧
      ∀ child ∈ a.children n, child.index < id.index
  /-- A node and all below it have the numbers from some first one to that of the node. -/
  block : ∀ id, id.index < a.size → ∃ first, a.Block first id
  /-- Every node but the root is a child, and that once. -/
  references : ∀ id, a.references id = if id.index < a.size ∧ id ≠ root then 1 else 0
  /-- The argument list is made of those of the calls, in the order of the calls. -/
  args_eq : a.args.toList = (a.spans Node.argSpan?).flatMap fun s => (a.args? s).getD []
  args_partition : Span.Partition (a.spans Node.argSpan?) a.args.size
  /-- The parameter list is made of those of the lambdas, in the order of the lambdas. -/
  params_eq : a.params.toList = (a.spans Node.paramSpan?).flatMap fun s => (a.params? s).getD []
  params_partition : Span.Partition (a.spans Node.paramSpan?) a.params.size
  /-- The parameters of an inner lambda stand before those of an outer one. -/
  inner_before : ∀ outer inner s t body body', a.Encloses outer inner →
    a.node? inner = some (.lambda s body) → a.node? outer = some (.lambda t body') →
      s.start + s.length ≤ t.start
  params_pos : ∀ id span body, a.node? id = some (.lambda span body) → 0 < span.length

end Arena

namespace Program

/-- Every node of a program stands for a canonical expression. -/
theorem exists_canonical_of_ofSexp {s : Sexp} {names names' : Interner} {p : Program} {id : NodeId}
    (h : ofSexp s names = (.ok p, names')) (hId : id.index < p.arena.size) :
    ∃ part, p.arena.tree? id = some part ∧ (part.map names'.lookup).Canonical := by
  obtain ⟨e, hPlant, -, hSpells⟩ := exists_plant_of_ofSexp h
  have hSequenced := Arena.sequenced e .empty Arena.wellFormed_empty
  rw [hPlant] at hSequenced
  have hTrees : p.arena.trees = e.postorder.map some := by
    simpa [Arena.trees, Arena.size, Arena.empty] using hSequenced.trees_eq
  obtain ⟨part, hPart⟩ := hSequenced.wellFormed.exists_tree? hId
  have hMem : some part ∈ e.postorder.map some := by
    rw [← hTrees, ← hPart]
    exact List.mem_map_of_mem (List.mem_range.2 hId)
  have hPostorder : part.map names'.lookup ∈ (e.map names'.lookup).postorder := by
    rw [Expr.postorder_map]
    exact List.mem_map_of_mem ((List.mem_map_of_injective (Option.some_injective _)).1 hMem)
  have hWhole := Expr.canonical_of_ofSexp s _ (hSpells names' (.refl _))
  exact ⟨part, hPart, hWhole.of_mem_postorder hPostorder⟩

/-- The lambdas of a program have parameters. -/
theorem params_ne_nil_of_ofSexp {s : Sexp} {names names' : Interner} {p : Program}
    {id body : NodeId} {span : Span} {params : List Name} (h : ofSexp s names = (.ok p, names'))
    (hNode : p.arena.node? id = some (.lambda span body))
    (hParams : p.arena.params? span = some params) : params ≠ [] := by
  obtain ⟨part, hPart, hCanonical⟩ :=
    exists_canonical_of_ofSexp h (Arena.index_lt_of_node? hNode)
  have hPos := Arena.length_pos_of_canonical hNode hPart hCanonical
  have hLength := Span.length_of_slice? hParams
  exact List.ne_nil_of_length_pos (by omega)

/-- Whatever tree is read, and whatever names there are already, the program is laid out as one
expression in post-order. -/
theorem laidOut_of_ofSexp {s : Sexp} {names names' : Interner} {p : Program}
    (h : ofSexp s names = (.ok p, names')) : p.arena.LaidOut p.root := by
  obtain ⟨e, hPlant, -, hSpells⟩ := exists_plant_of_ofSexp h
  have hSequenced := Arena.sequenced e .empty Arena.wellFormed_empty
  have hTidy := Arena.Tidy.plant e .empty .empty
  rw [hPlant] at hSequenced hTidy
  have hWell := hSequenced.wellFormed
  have hTree := (List.forall₂_cons.1 hSequenced.trees).1
  have hTrees : p.arena.trees = e.postorder.map some := by
    simpa [Arena.trees, Arena.size, Arena.empty] using hSequenced.trees_eq
  have hChildren : ∀ id n, p.arena.node? id = some n →
      ∃ first, p.arena.Blocks first (p.arena.children n) id.index :=
    fun id n hNode => hSequenced.children_blocks id n hNode (Nat.zero_le _)
  refine ⟨⟨e, hTree, hTrees⟩, index_root_of_ofSexp h, fun id n hNode => ?_, fun id hId => ?_,
    fun id => ?_, hTidy.args_eq, hTidy.args.partition, hTidy.params_eq, hTidy.params.partition,
    fun outer inner s t body body' hEncloses hInner hOuter => ?_, fun id span body hNode => ?_⟩
  · obtain ⟨first, hBlocks⟩ := hChildren id n hNode
    exact ⟨hBlocks.increasing.1, hWell.children_lt id n hNode⟩
  · obtain ⟨n, hNode⟩ := Arena.exists_node? hId
    obtain ⟨first, hBlocks⟩ := hChildren id n hNode
    exact ⟨first, hBlocks.block hNode⟩
  · have hReferences := references_of_ofSexp h id
    have hRoot := index_root_of_ofSexp h
    by_cases hSame : id = p.root
    · have hLast : id.index < p.arena.size := by rw [hSame]; omega
      rw [if_pos hSame.symm, if_pos hLast] at hReferences
      rw [if_neg fun hBoth => hBoth.2 hSame]
      omega
    · simpa [hSame, Ne.symm hSame] using hReferences
  · exact hTidy.params_before hInner hOuter (hWell.index_lt_of_encloses hEncloses)
  · have hId := Arena.index_lt_of_node? hNode
    obtain ⟨part, hPart⟩ := hWell.exists_tree? hId
    have hMem : some part ∈ p.arena.trees :=
      hPart ▸ List.mem_map_of_mem (List.mem_range.2 hId)
    rw [hTrees, List.mem_map_of_injective (Option.some_injective _)] at hMem
    have hCanonical : (part.map names'.lookup).Canonical :=
      (Expr.canonical_of_ofSexp s _ (hSpells names' (.refl _))).of_mem_postorder
        (Expr.postorder_map _ e ▸ List.mem_map_of_mem hMem)
    exact Arena.length_pos_of_canonical hNode hPart hCanonical

/-- A lambda inside a lambda, a call without arguments and one with two. -/
theorem laidOut_of_ofSexp_nested :
    ∃ p names', ofSexp (.list [.list [.symbol "x", .symbol "=>", .list [.symbol "y", .symbol "z",
        .symbol "=>", .list [.symbol "x"]]], .bool true, .symbol "y"]) .empty = (.ok p, names') ∧
      p = ⟨⟨#[.identifier ⟨0⟩, .apply ⟨0⟩ ⟨0, 0⟩, .lambda ⟨0, 2⟩ ⟨1⟩, .lambda ⟨2, 1⟩ ⟨2⟩,
        .bool true, .identifier ⟨1⟩, .apply ⟨3⟩ ⟨0, 2⟩], #[⟨4⟩, ⟨5⟩], #[⟨1⟩, ⟨2⟩, ⟨0⟩]⟩, ⟨6⟩⟩ ∧
      p.arena.LaidOut p.root := by
  have hProgram : (ofSexp (.list [.list [.symbol "x", .symbol "=>", .list [.symbol "y", .symbol "z",
      .symbol "=>", .list [.symbol "x"]]], .bool true, .symbol "y"]) .empty).1 =
      .ok ⟨⟨#[.identifier ⟨0⟩, .apply ⟨0⟩ ⟨0, 0⟩, .lambda ⟨0, 2⟩ ⟨1⟩, .lambda ⟨2, 1⟩ ⟨2⟩,
        .bool true, .identifier ⟨1⟩, .apply ⟨3⟩ ⟨0, 2⟩], #[⟨4⟩, ⟨5⟩], #[⟨1⟩, ⟨2⟩, ⟨0⟩]⟩, ⟨6⟩⟩ := by
    cbv
  exact ⟨_, _, Prod.ext hProgram rfl, rfl, laidOut_of_ofSexp (Prod.ext hProgram rfl)⟩

end Program

end ArrowLisp
