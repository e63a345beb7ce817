import ArrowLisp.Proofs.Arena.Lexical
import ArrowLisp.Proofs.Machine.Invariants
import ArrowLisp.Proofs.Program.Storing

/-!
Static scoping. Wherever a run has got to, a node of a program is evaluated in the environment in
which the program was started and one frame more for each lambda around the node, innermost first.
The way that led there, through calls, recursion or closures that have been handed around, does not
show.
-/

namespace ArrowLisp.Machine

variable {names : Interner} {a : Arena} {E env : Environment Value} {id : NodeId}

/-- An environment is `E` and on top of it one frame for each lambda around a node, innermost first.
A layer is such a lambda with its frame, which binds its parameters and nothing else. -/
structure Placed (a : Arena) (E env : Environment Value) (id : NodeId)
    (layers : List (NodeId × Frame Value)) : Prop where
  frames_eq : env.frames = layers.map Prod.snd ++ E.frames
  encloses_iff : ∀ lam, lam ∈ layers.map Prod.fst ↔ a.Encloses lam id
  nested : (layers.map Prod.fst).Pairwise fun inner outer => a.Encloses outer inner
  binds_iff : ∀ layer ∈ layers, ∀ x, (layer.2.find? x).isSome ↔ a.Declares layer.1 x

namespace Placed

variable {layers : List (NodeId × Frame Value)}

/-- Nodes with the same lambdas around them are placed alike. -/
theorem of_encloses_iff (h : Placed a E env id layers) {id' : NodeId}
    (hSame : ∀ lam, a.Encloses lam id' ↔ a.Encloses lam id) : Placed a E env id' layers :=
  ⟨h.frames_eq, fun lam => (h.encloses_iff lam).trans (hSame lam).symm, h.nested, h.binds_iff⟩

/-- Where no lambda is around, nothing is added. -/
theorem root (h : ∀ lam, ¬a.Encloses lam id) : Placed a E E id [] :=
  ⟨rfl, by simpa using h, .nil, by simp⟩

/-- In a call, the frame of the arguments stands for the lambda that is entered. -/
theorem body (h : Placed a E env id layers) (hUnique : a.UniqueParents) {span : Span}
    {body : NodeId} {params : List Name} (hNode : a.node? id = some (.lambda span body))
    (hParams : a.params? span = some params) {args : List Value}
    (hLength : params.length = args.length) :
    Placed a E (env.withFrame (params.zip args)) body
      ((id, Frame.ofList (params.zip args)) :: layers) := by
  refine ⟨?_, fun lam => ?_, ?_, List.forall_mem_cons.2 ⟨fun x => ?_, h.binds_iff⟩⟩
  · rw [Environment.withFrame, h.frames_eq]
    rfl
  · rw [Arena.encloses_body_iff hUnique hNode, List.map_cons, List.mem_cons, h.encloses_iff]
  · exact List.pairwise_cons.2 ⟨fun lam hMem => (h.encloses_iff lam).1 hMem, h.nested⟩
  · rw [Frame.isSome_find?_ofList_zip hLength]
    constructor
    · exact fun hMem => ⟨span, body, params, hNode, hParams, hMem⟩
    · rintro ⟨span', body', params', hNode', hParams', hMem⟩
      rw [hNode] at hNode'
      cases hNode'
      obtain rfl := Option.some.inj (hParams.symm.trans hParams')
      exact hMem

theorem depth_eq (h : Placed a E env id layers) (hArena : a.WellFormed) :
    env.depth = E.depth + a.lexicalDepth id := by
  have hNodup : (layers.map Prod.fst).Nodup := h.nested.imp fun hEncloses hEq => by
    have hLt := hArena.index_lt_of_encloses hEncloses
    rw [hEq] at hLt
    exact Nat.lt_irrefl _ hLt
  have hSet : {lam | a.Encloses lam id} = ((layers.map Prod.fst).toFinset : Set NodeId) := by
    ext lam
    simp [← h.encloses_iff]
  rw [Arena.lexicalDepth, hSet, Set.ncard_coe_finset, List.toFinset_card_of_nodup hNodup,
    Environment.depth, h.frames_eq, List.length_append, List.length_map, List.length_map,
    Environment.depth, Nat.add_comm]

/-- A name means what the innermost lambda that declares it has bound, and without such a lambda
what it means in `E`. -/
theorem lookup_eq (h : Placed a E env id layers) (x : Name) :
    (∃ inner lam frame outer, layers = inner ++ (lam, frame) :: outer ∧ a.Declares lam x ∧
      (∀ layer ∈ inner, ¬a.Declares layer.1 x) ∧ env.lookup x = frame.find? x ∧
      (frame.find? x).isSome) ∨
    ((∀ layer ∈ layers, ¬a.Declares layer.1 x) ∧ env.lookup x = E.lookup x) := by
  have hBinds := h.binds_iff
  rw [Environment.lookup, h.frames_eq, Environment.lookup]
  clear h
  induction layers with
  | nil => exact Or.inr ⟨by simp, rfl⟩
  | cons layer layers ih =>
      obtain ⟨lam, frame⟩ := layer
      obtain ⟨hHead, hTail⟩ := List.forall_mem_cons.1 hBinds
      by_cases hDeclares : a.Declares lam x
      · have hBound : (frame.find? x).isSome := (hHead x).2 hDeclares
        refine Or.inl ⟨[], lam, frame, layers, rfl, hDeclares, by simp, ?_, hBound⟩
        exact List.findSome?_cons_of_isSome hBound
      · have hUnbound : (frame.find? x).isNone := by
          simpa [hDeclares] using hHead x
        have hSkip : ∀ fs : List (Frame Value), (frame :: fs).findSome? (·.find? x) =
            fs.findSome? (·.find? x) := fun fs => List.findSome?_cons_of_isNone hUnbound
        rw [List.map_cons, List.cons_append, hSkip]
        rcases ih hTail with hFound | ⟨hNone, hLookup⟩
        · obtain ⟨inner, lam', frame', outer, rfl, hDeclares', hInner, hLookup⟩ := hFound
          exact Or.inl ⟨(lam, frame) :: inner, lam', frame', outer, rfl, hDeclares',
            List.forall_mem_cons.2 ⟨hDeclares, hInner⟩, hLookup⟩
        · exact Or.inr ⟨List.forall_mem_cons.2 ⟨hDeclares, hNone⟩, hLookup⟩

end Placed

/-- A node of the arena is evaluated in its place. Nodes of other arenas may be anywhere. -/
def Scope.InPlace (a : Arena) (E : Environment Value) (scope : Scope) (id : NodeId) : Prop :=
  scope.arena = a → ∃ layers, Placed a E scope.env id layers

/-- A closure over the arena belongs to a lambda of it and has been made in the place of this
lambda. -/
def ClosureInPlace (a : Arena) (E : Environment Value) (c : Closure Value) : Prop :=
  c.arena = a → ∃ lam span, a.node? lam = some (.lambda span c.body) ∧
    a.params? span = some c.params ∧ ∃ layers, Placed a E c.env lam layers

theorem Scope.InPlace.child {scope : Scope} (hUnique : a.UniqueParents)
    (h : scope.InPlace a E id) {node : Node} (hNode : scope.arena.node? id = some node)
    (hOther : ∀ span body, node ≠ .lambda span body) {child : NodeId}
    (hChild : child ∈ scope.arena.children node) : scope.InPlace a E child := by
  rintro rfl
  obtain ⟨layers, hPlaced⟩ := h rfl
  exact ⟨layers, hPlaced.of_encloses_iff fun lam =>
    Arena.encloses_iff_of_not_lambda hUnique hNode hChild hOther⟩

/-- Evaluation keeps nodes and closures in their places. -/
theorem handsOn_inPlace (hUnique : a.UniqueParents) :
    HandsOn (Scope.InPlace a E) (ClosureInPlace a E) := by
  refine .of_children (fun h hNode hOther hMem => h.child hUnique hNode hOther hMem)
    (fun _ h hNode hParams hArena => ?_) fun h hExtend hArena => ?_
  · subst hArena
    exact ⟨_, _, hNode, hParams, h rfl⟩
  · obtain ⟨lam, span, hNode, hParams, layers, hPlaced⟩ := h hArena
    obtain ⟨hLength, rfl⟩ := Environment.extend_eq_ok_iff.1 hExtend
    exact ⟨_, hPlaced.body hUnique hNode hParams hLength⟩

/-- Every moment of a run from the root of a program is in place, if the environment in which it was
started holds no closure over the program's arena. -/
theorem has_inPlace {p : Program} {s : Sexp} {names names' : Interner}
    (hProgram : Program.ofSexp s names = (.ok p, names'))
    (hEnv : E.Hereditarily fun c => c.arena ≠ p.arena) (n : Nat) :
    Configuration.Has (Scope.InPlace p.arena E) (ClosureInPlace p.arena E)
      ⟨.eval ⟨p.arena, E⟩ p.root, [], n⟩ := by
  have hRoot : ∀ lam, ¬p.arena.Encloses lam p.root := fun lam =>
    (Program.wellFormed_of_ofSexp hProgram).not_encloses_last
      (Program.index_root_of_ofSexp hProgram)
  exact ⟨.eval (fun _ => ⟨[], .root hRoot⟩) (hEnv.mono fun c hc hArena => absurd hArena hc),
    by simp⟩

end ArrowLisp.Machine

namespace ArrowLisp.Program

theorem uniqueParents_of_ofSexp {s : Sexp} {names names' : Interner} {p : Program}
    (h : ofSexp s names = (.ok p, names')) : p.arena.UniqueParents := by
  refine Arena.uniqueParents_of_references_le fun id => ?_
  have hOnce := references_of_ofSexp h id
  split at hOnce <;> split at hOnce <;> omega

/-- Static scoping. Whenever a node of a program is evaluated, its environment is `E` and one frame
for each lambda around it, so its depth is that of `E` and of the node, and a name means what the
innermost lambda around it that declares it has bound, or what it means in `E`. Closures of the
program, also those within a result, have captured what belongs to their lambda.

`E` must not hold a closure of the program, since that has an environment of its own. Arenas have
no identity and are compared by what is in them, so a closure that is left from an earlier reading of
the same tree, with the same names, is shut out as well. -/
theorem static_scoping {s : Sexp} {names names' : Interner} {p : Program} {E : Environment Value}
    (hProgram : ofSexp s names = (.ok p, names'))
    (hEnv : E.Hereditarily fun c => c.arena ≠ p.arena) (i : Interner) (next : Nat) :
    (∀ scope id waiting n, scope.arena = p.arena →
      Machine.Reaches i ⟨.eval ⟨p.arena, E⟩ p.root, [], next⟩ ⟨.eval scope id, waiting, n⟩ →
      ∃ layers, Machine.Placed p.arena E scope.env id layers ∧
        scope.env.depth = E.depth + p.arena.lexicalDepth id ∧
        ∀ x, (∃ inner lam frame outer, layers = inner ++ (lam, frame) :: outer ∧
            p.arena.Declares lam x ∧ (∀ layer ∈ inner, ¬p.arena.Declares layer.1 x) ∧
            scope.env.lookup x = frame.find? x ∧ (frame.find? x).isSome) ∨
          ((∀ layer ∈ layers, ¬p.arena.Declares layer.1 x) ∧
            scope.env.lookup x = E.lookup x)) ∧
    ∀ limit v, (Machine.eval limit i p.arena p.root E next).1 = .value v →
      v.Hereditarily fun c => c.arena = p.arena →
        ∃ lam span, p.arena.node? lam = some (.lambda span c.body) ∧
          p.arena.params? span = some c.params ∧
          c.env.depth = E.depth + p.arena.lexicalDepth lam := by
  have hUnique := uniqueParents_of_ofSexp hProgram
  have hArena := wellFormed_of_ofSexp hProgram
  have hStart := Machine.has_inPlace hProgram hEnv next
  refine ⟨fun scope id waiting n hScope hReaches => ?_, fun limit v hRun => ?_⟩
  · have hHas := (Machine.handsOn_inPlace hUnique).of_reaches hReaches hStart
    cases hHas.control with
    | eval hPlace _ =>
        obtain ⟨layers, hPlaced⟩ := hPlace hScope
        exact ⟨layers, hPlaced, hPlaced.depth_eq hArena, hPlaced.lookup_eq⟩
  · obtain ⟨c, hReaches, hDone, -⟩ := Machine.exists_reaches_of_run (Prod.ext hRun rfl) (by simp)
    have hValue := ((Machine.handsOn_inPlace hUnique).of_reaches hReaches hStart).of_done hDone
    refine hValue.mono fun c hPlace hSame => ?_
    obtain ⟨lam, span, hNode, hParams, layers, hPlaced⟩ := hPlace hSame
    exact ⟨lam, span, hNode, hParams, hPlaced.depth_eq hArena⟩

/-- A closure that leaves the call in which it was made keeps the frame of this call. -/
theorem static_scoping_escaping_closure :
    ∃ p c lam span,
      (ofSexp (.list [.list [.symbol "x", .symbol "=>",
        .list [.symbol "y", .symbol "=>", .symbol "x"]], .bool true]) .empty).1 = .ok p ∧
      (Machine.eval 9 .empty p.arena p.root .empty 0).1 = .value (.closure c) ∧
      p.arena.node? lam = some (.lambda span c.body) ∧ c.env.depth = 1 ∧
      p.arena.lexicalDepth lam = 1 := by
  have hProgram : (ofSexp (.list [.list [.symbol "x", .symbol "=>",
      .list [.symbol "y", .symbol "=>", .symbol "x"]], .bool true]) .empty).1 =
      .ok ⟨⟨#[.identifier ⟨0⟩, .lambda ⟨0, 1⟩ ⟨0⟩, .lambda ⟨1, 1⟩ ⟨1⟩, .bool true,
        .apply ⟨2⟩ ⟨0, 1⟩], #[⟨3⟩], #[⟨1⟩, ⟨0⟩]⟩, ⟨4⟩⟩ := by cbv
  have hScoping := static_scoping (Prod.ext hProgram rfl) Environment.Hereditarily.empty .empty 0
  obtain ⟨lam, span, hNode, -, hDepth⟩ := (hScoping.2 9 _ rfl).here rfl
  exact ⟨_, _, lam, span, hProgram, rfl, hNode, rfl, (hDepth.trans (Nat.zero_add _)).symm⟩

end ArrowLisp.Program
