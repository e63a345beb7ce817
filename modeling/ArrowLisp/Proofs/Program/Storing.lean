import ArrowLisp.Expr.Sexp
import ArrowLisp.Program.Store
import ArrowLisp.Proofs.Arena.Postorder
import ArrowLisp.Proofs.Forms
import ArrowLisp.Proofs.Interning

/-!
What a walk that does not fail has stored: the expression that its tree spells, planted in the
arena, with names for the texts. Names that come later do not change what has been stored.
-/

namespace ArrowLisp.Program

namespace Builder

section Equations

variable {items : List Sexp} (b : Builder)

theorem store_conditional {condition consequent alternative : Sexp}
    (hForm : Form.ofItems items = .conditional condition consequent alternative) :
    b.store (.list items) =
      andThen (b.store condition) fun condition b =>
        andThen (b.store consequent) fun consequent b =>
          andThen (b.store alternative) fun alternative b =>
            done (b.alloc (.conditional condition consequent alternative)) := by
  rw [store]
  split <;> simp_all

theorem store_lambda {params : List Sexp} {body : Sexp}
    (hForm : Form.ofItems items = .lambda params body) :
    b.store (.list items) =
      andThen (b.params params) fun names b =>
        andThen (b.store body) fun body b => done (b.allocLambda names body) := by
  rw [store]
  split <;> simp_all

theorem store_application {callee : Sexp} {args : List Sexp}
    (hForm : Form.ofItems items = .application (callee :: args)) :
    b.store (.list items) =
      andThen (b.store callee) fun callee b =>
        andThen (b.storeAll args) fun args b => done (b.allocApply callee args) := by
  rw [store]
  split <;> simp_all

theorem store_empty (hForm : Form.ofItems items = .application []) :
    b.store (.list items) = (.error .emptyList, b) := by
  rw [store]
  split <;> simp_all

end Equations

theorem exists_of_andThen {α β : Type} {r : Except ParseError α × Builder}
    {next : α → Builder → Except ParseError β × Builder} {y : β} {b : Builder}
    (h : andThen r next = (.ok y, b)) : ∃ x b', r = (.ok x, b') ∧ next x b' = (.ok y, b) := by
  obtain ⟨result, b'⟩ := r
  cases result with
  | ok x => exact ⟨x, b', rfl, h⟩
  | error e => cases h

/-- Names for parameters, all of which are symbols. The arena stays as it is. -/
structure Names (items : List Sexp) (b : Builder) (params : List Name) (b' : Builder) : Prop where
  arena_eq : b'.arena = b.arena
  grows : b.names.Extends b'.names
  spells : ∀ j, b'.names.Extends j → Expr.paramsOfSexps items = .ok (params.map j.lookup)
  issued : ∀ x ∈ params, b'.names.Issued x

theorem names_of_nameParams {items : List Sexp} {b b' : Builder} {params : List Name}
    (h : b.nameParams items = (.ok params, b')) : Names items b params b' := by
  induction items generalizing b b' params with
  | nil => cases h; exact ⟨rfl, .refl _, fun _ _ => rfl, by simp⟩
  | cons item items ih =>
      rw [nameParams] at h
      cases hSymbol : item.symbol? with
      | none => simp [hSymbol] at h
      | some text =>
          cases hRest : nameParams { b with names := (b.names.intern text).2 } items with
          | mk result last =>
              simp only [hSymbol, hRest] at h
              cases result with
              | error e => cases h
              | ok others =>
                  cases h
                  have hNames := ih hRest
                  have hGrows := hNames.grows
                  refine ⟨hNames.arena_eq, (Interner.extends_intern _ _).trans hGrows,
                    fun j hj => ?_, List.forall_mem_cons.2 ⟨?_, hNames.issued⟩⟩
                  · rw [Expr.paramsOfSexps, hSymbol, hNames.spells j hj, List.map_cons,
                      Interner.lookup_intern (hGrows.trans hj)]
                    rfl
                  · exact hGrows.issued ⟨text, Interner.find?_intern _ _⟩

theorem names_of_params {items : List Sexp} {b b' : Builder} {params : List Name}
    (h : b.params items = (.ok params, b')) : items ≠ [] ∧ Names items b params b' := by
  cases items with
  | nil => cases h
  | cons item items => exact ⟨List.cons_ne_nil _ _, names_of_nameParams h⟩

/-- A tree is stored as the expression that it spells, with names for the texts. -/
structure Stores (s : Sexp) (b : Builder) (e : Expr Name) (id : NodeId) (b' : Builder) : Prop where
  plants : b.arena.plant e = (id, b'.arena)
  grows : b.names.Extends b'.names
  spells : ∀ j, b'.names.Extends j → Expr.ofSexp s = .ok (e.map j.lookup)
  issued : ∀ x ∈ e.names, b'.names.Issued x

/-- Trees are stored from left to right. -/
structure StoresAll (ss : List Sexp) (b : Builder) (es : List (Expr Name)) (ids : List NodeId)
    (b' : Builder) : Prop where
  plants : b.arena.plantAll es = (ids, b'.arena)
  grows : b.names.Extends b'.names
  spells : ∀ j, b'.names.Extends j → Expr.ofSexps ss = .ok (es.map (Expr.map j.lookup))
  issued : ∀ e ∈ es, ∀ x ∈ e.names, b'.names.Issued x

theorem storesAll_of_storeAll {ss : List Sexp}
    (hStore : ∀ s ∈ ss, ∀ {b id b'}, b.store s = (.ok id, b') → ∃ e, Stores s b e id b')
    {b b' : Builder} {ids : List NodeId} (h : b.storeAll ss = (.ok ids, b')) :
    ∃ es, StoresAll ss b es ids b' := by
  induction ss generalizing b ids with
  | nil =>
      rw [storeAll] at h
      cases h
      exact ⟨[], rfl, .refl _, fun _ _ => by rw [Expr.ofSexps]; rfl, by simp⟩
  | cons s ss ih =>
      obtain ⟨hHead, hTail⟩ := List.forall_mem_cons.1 hStore
      rw [storeAll] at h
      obtain ⟨id, middle, hFirst, h⟩ := exists_of_andThen h
      obtain ⟨ids, last, hRest, h⟩ := exists_of_andThen h
      cases h
      obtain ⟨e, hE⟩ := hHead hFirst
      obtain ⟨es, hEs⟩ := ih hTail hRest
      refine ⟨e :: es, ?_, hE.grows.trans hEs.grows, fun j hj => ?_,
        List.forall_mem_cons.2 ⟨fun x hx => hEs.grows.issued (hE.issued x hx), hEs.issued⟩⟩
      · rw [Arena.plantAll, hE.plants]
        simp only [hEs.plants]
      · rw [Expr.ofSexps, hE.spells j (hEs.grows.trans hj), hEs.spells j hj]
        rfl

/-- A node without names is stored as it is. -/
theorem stores_of_alloc {s : Sexp} {e : Expr Name} {node : Node} {b b' : Builder} {id : NodeId}
    (hPlant : b.arena.plant e = b.arena.alloc node)
    (hSpells : ∀ j : Interner, Expr.ofSexp s = .ok (e.map j.lookup)) (hNames : e.names = [])
    (h : done (b.alloc node) = (.ok id, b')) : Stores s b e id b' := by
  cases h
  exact ⟨hPlant, .refl _, fun j _ => hSpells j, by simp [hNames]⟩

/-- A walk that does not fail stores the expression that its tree spells. -/
theorem stores_of_store (s : Sexp) :
    ∀ {b id b'}, b.store s = (.ok id, b') → ∃ e, Stores s b e id b' := by
  induction s using Sexp.form_induction with
  | number x =>
      intro b id b' h
      rw [store] at h
      exact ⟨.number x, stores_of_alloc rfl (fun _ => by rw [Expr.ofSexp]; rfl) rfl h⟩
  | string s =>
      intro b id b' h
      rw [store] at h
      exact ⟨.string s, stores_of_alloc rfl (fun _ => by rw [Expr.ofSexp]; rfl) rfl h⟩
  | bool value =>
      intro b id b' h
      rw [store] at h
      exact ⟨.bool value, stores_of_alloc rfl (fun _ => by rw [Expr.ofSexp]; rfl) rfl h⟩
  | symbol text =>
      intro b id b' h
      rw [store] at h
      cases h
      refine ⟨.identifier (b.names.intern text).1, rfl, Interner.extends_intern _ _, fun j hj => ?_,
        ?_⟩
      · rw [Expr.ofSexp, Expr.map, Interner.lookup_intern hj]
      · simpa [Expr.names] using ⟨text, Interner.find?_intern _ _⟩
  | conditional hForm ihC ihT ihE =>
      intro b id b' h
      rw [store_conditional b hForm] at h
      obtain ⟨c, b₁, hC, h⟩ := exists_of_andThen h
      obtain ⟨t, b₂, hT, h⟩ := exists_of_andThen h
      obtain ⟨e, b₃, hE, h⟩ := exists_of_andThen h
      cases h
      obtain ⟨condition, hC⟩ := ihC hC
      obtain ⟨consequent, hT⟩ := ihT hT
      obtain ⟨alternative, hE⟩ := ihE hE
      refine ⟨.conditional condition consequent alternative, ?_,
        (hC.grows.trans hT.grows).trans hE.grows, fun j hj => ?_, ?_⟩
      · simp only [Arena.plant, hC.plants, hT.plants, hE.plants]
        rfl
      · have hj' := hE.grows.trans hj
        rw [Expr.ofSexp_conditional hForm, hC.spells j (hT.grows.trans hj'), hT.spells j hj',
          hE.spells j hj]
        rfl
      · simp only [Expr.names, List.forall_mem_append]
        exact ⟨⟨fun x hx => (hT.grows.trans hE.grows).issued (hC.issued x hx),
          fun x hx => hE.grows.issued (hT.issued x hx)⟩, hE.issued⟩
  | lambda hForm ih =>
      intro b id b' h
      rw [store_lambda b hForm] at h
      obtain ⟨names, b₁, hParams, h⟩ := exists_of_andThen h
      obtain ⟨body, b₂, hBody, h⟩ := exists_of_andThen h
      cases h
      obtain ⟨hSome, hNames⟩ := names_of_params hParams
      obtain ⟨e, hE⟩ := ih hBody
      refine ⟨.lambda names e, ?_, hNames.grows.trans hE.grows, fun j hj => ?_, ?_⟩
      · simp only [Arena.plant, ← hNames.arena_eq, hE.plants]
        rfl
      · obtain ⟨param, params, rfl⟩ := List.exists_cons_of_ne_nil hSome
        rw [Expr.ofSexp_lambda hForm, hNames.spells j (hE.grows.trans hj), hE.spells j hj]
        rfl
      · simp only [Expr.names, List.forall_mem_append]
        exact ⟨fun x hx => hE.grows.issued (hNames.issued x hx), hE.issued⟩
  | @application items hForm ih =>
      intro b id b' h
      cases items with
      | nil =>
          rw [store_empty b hForm] at h
          cases h
      | cons callee args =>
          obtain ⟨ihCallee, ihArgs⟩ := List.forall_mem_cons.1 ih
          rw [store_application b hForm] at h
          obtain ⟨f, b₁, hCallee, h⟩ := exists_of_andThen h
          obtain ⟨ids, b₂, hArgs, h⟩ := exists_of_andThen h
          cases h
          obtain ⟨e, hE⟩ := ihCallee hCallee
          obtain ⟨es, hEs⟩ := storesAll_of_storeAll ihArgs hArgs
          refine ⟨.apply e es, ?_, hE.grows.trans hEs.grows, fun j hj => ?_, ?_⟩
          · simp only [Arena.plant, hE.plants, hEs.plants]
            rfl
          · rw [Expr.ofSexp_application hForm, hE.spells j (hEs.grows.trans hj), hEs.spells j hj]
            simp [Expr.map, bind, Except.bind, pure, Except.pure]
          · simp only [Expr.names, Expr.namesAll_eq_flatMap, List.forall_mem_append,
              List.forall_mem_flatMap]
            exact ⟨fun x hx => hEs.grows.issued (hE.issued x hx), hEs.issued⟩

end Builder

/-- A program that has been read is stored as its tree is, in an arena without other nodes. -/
theorem exists_stores_of_ofSexp {s : Sexp} {names names' : Interner} {p : Program}
    (h : ofSexp s names = (.ok p, names')) :
    ∃ e, Builder.Stores s ⟨.empty, names⟩ e p.root ⟨p.arena, names'⟩ := by
  rw [ofSexp, build_tree] at h
  cases hStore : Builder.store ⟨.empty, names⟩ s with
  | mk result b =>
      rw [hStore] at h
      cases result with
      | error e => cases h
      | ok root =>
          cases h
          exact Builder.stores_of_store s hStore

section Parsed

variable {s : Sexp} {names names' : Interner} {p : Program}

/-- A program that has been read is the expression that its tree spells, planted in an arena without
other nodes. -/
theorem exists_plant_of_ofSexp (h : ofSexp s names = (.ok p, names')) :
    ∃ e, Arena.empty.plant e = (p.root, p.arena) ∧ names.Extends names' ∧
      ∀ j, names'.Extends j → Expr.ofSexp s = .ok (e.map j.lookup) := by
  obtain ⟨e, hE⟩ := exists_stores_of_ofSexp h
  exact ⟨e, hE.plants, hE.grows, hE.spells⟩

/-- The root of a program stands for the expression that the tree spells, and its names are names of
the interner. -/
theorem exists_tree?_of_ofSexp (h : ofSexp s names = (.ok p, names')) :
    ∃ e, p.arena.tree? p.root = some e ∧ Expr.ofSexp s = .ok (e.map names'.lookup) ∧
      ∀ x ∈ e.names, names'.Issued x := by
  obtain ⟨e, hE⟩ := exists_stores_of_ofSexp h
  have hTrees := (Arena.planted e .empty Arena.wellFormed_empty).trees
  rw [hE.plants] at hTrees
  exact ⟨e, (List.forall₂_cons.1 hTrees).1, hE.spells names' (.refl _), hE.issued⟩

theorem extends_of_ofSexp (h : ofSexp s names = (.ok p, names')) : names.Extends names' := by
  obtain ⟨e, hE⟩ := exists_stores_of_ofSexp h
  exact hE.grows

theorem wellFormed_of_ofSexp (h : ofSexp s names = (.ok p, names')) : p.arena.WellFormed := by
  obtain ⟨e, hPlant, -, -⟩ := exists_plant_of_ofSexp h
  have hPlanted := Arena.planted e .empty Arena.wellFormed_empty
  rw [hPlant] at hPlanted
  exact hPlanted.wellFormed

/-- The root of a program is its last node. -/
theorem index_root_of_ofSexp (h : ofSexp s names = (.ok p, names')) :
    p.root.index + 1 = p.arena.size := by
  obtain ⟨e, hPlant, -, -⟩ := exists_plant_of_ofSexp h
  have hLast := Arena.index_plant .empty e
  rwa [hPlant] at hLast

/-- Every node of a program but its root is a child, and that once. -/
theorem references_of_ofSexp (h : ofSexp s names = (.ok p, names')) (id : NodeId) :
    p.arena.references id + (if p.root = id then 1 else 0) =
      if id.index < p.arena.size then 1 else 0 := by
  obtain ⟨e, hPlant, -, -⟩ := exists_plant_of_ofSexp h
  have hPlanted := (Arena.planted e .empty Arena.wellFormed_empty).references id
  have hNone : Arena.empty.references id = 0 := rfl
  have hSize : Arena.empty.size = 0 := rfl
  rw [hPlant, List.count_singleton, hNone, hSize] at hPlanted
  simpa only [beq_iff_eq, Nat.zero_le, true_and, Nat.zero_add] using hPlanted

end Parsed

end ArrowLisp.Program
