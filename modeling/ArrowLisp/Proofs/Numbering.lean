import ArrowLisp.Proofs.Machine.Lockstep
import ArrowLisp.Proofs.TopEnvironment

/-!
One program under two interners. Names stand for each other if they are names of one text, and nodes
if they spell one expression. Environments correspond if they bind texts alike, whichever numbers
the texts have; interning more texts changes nothing about this.
-/

namespace ArrowLisp

variable {i j i' j' : Interner} {B B' : Nat → Nat → Prop}

namespace Arena

variable {a b : Arena} {id id' : NodeId} {t : Expr String} {x : Name}

/-- A node stands for an expression over texts, and all its names are names of the interner. -/
def Spells (a : Arena) (i : Interner) (id : NodeId) (t : Expr String) : Prop :=
  ∃ e, a.tree? id = some e ∧ (∀ x ∈ e.names, i.Issued x) ∧ e.map i.lookup = t

theorem Spells.of_extends (h : a.Spells i id t) (hExtends : i.Extends j) : a.Spells j id t := by
  obtain ⟨e, hTree, hIssued, rfl⟩ := h
  exact ⟨e, hTree, fun x hx => hExtends.issued (hIssued x hx),
    Expr.map_congr fun x hx => hExtends.lookup_eq (hIssued x hx)⟩

/-- An expression over texts is one expression over the names of an interner. -/
theorem Spells.exists_tree? (h : a.Spells i id t) (h' : b.Spells i id' t) :
    ∃ e, a.tree? id = some e ∧ b.tree? id' = some e := by
  obtain ⟨e, hTree, hIssued, rfl⟩ := h
  obtain ⟨e', hTree', hIssued', hSame⟩ := h'
  have hName : ∀ x, i.Issued x → (i.find? (i.lookup x)).getD ⟨0⟩ = x := by
    intro x hx
    rw [hx.find?_lookup, Option.getD_some]
  -- The names of an expression can be found again from its texts.
  have hEq : e = e' := by
    rw [← Expr.map_map_eq_self (g := fun t => (i.find? t).getD ⟨0⟩)
      fun x hx => hName x (hIssued x hx), ← hSame,
      Expr.map_map_eq_self fun x hx => hName x (hIssued' x hx)]
  exact ⟨e, hTree, hEq ▸ hTree'⟩

/-- The texts of an expression have names. -/
theorem Spells.exists_name (h : a.Spells i id t) {u : String} (hu : u ∈ t.names) :
    ∃ x, i.find? u = some x := by
  obtain ⟨e, -, hIssued, rfl⟩ := h
  rw [Expr.names_map] at hu
  obtain ⟨x, hx, rfl⟩ := List.mem_map.1 hu
  exact ⟨x, (hIssued x hx).find?_lookup⟩

/-- Free names are names of texts that are in the expression. -/
theorem Spells.exists_text (h : a.Spells i id t) (hFree : a.Free x id) :
    ∃ u ∈ t.names, i.find? u = some x := by
  obtain ⟨e, hTree, hIssued, rfl⟩ := h
  have hMem := ((free_iff_of_tree? hTree).1 hFree).mem_names
  exact ⟨i.lookup x, Expr.names_map _ e ▸ List.mem_map_of_mem hMem,
    (hIssued x hMem).find?_lookup⟩

end Arena

/-- The likeness of two interners: names of one text stand for each other, and nodes that spell one
expression. Which identities stand for each other is given. -/
def Likeness.sameTexts (i j : Interner) (B : Nat → Nat → Prop) : Likeness where
  name x y := ∃ t, i.find? t = some x ∧ j.find? t = some y
  identity := B
  node a id b id' := ∃ t, a.Spells i id t ∧ b.Spells j id' t

namespace Likeness

variable {a b : Arena}

theorem sameTexts_name {x y : Name} (hx : i.Issued x) (hy : j.Issued y)
    (hSame : j.lookup y = i.lookup x) : (sameTexts i j B).name x y :=
  ⟨i.lookup x, hx.find?_lookup, hSame ▸ hy.find?_lookup⟩

theorem sameTexts_names {params params' : List Name} (hIssued : ∀ x ∈ params, i.Issued x)
    (hIssued' : ∀ y ∈ params', j.Issued y)
    (hSame : params'.map j.lookup = params.map i.lookup) :
    List.Forall₂ (sameTexts i j B).name params params' := by
  induction params generalizing params' with
  | nil =>
      obtain rfl := List.map_eq_nil_iff.1 hSame
      exact .nil
  | cons x params ih =>
      obtain ⟨y, params', rfl, hHead, hTail⟩ := List.map_eq_cons_iff.1 hSame
      obtain ⟨hx, hParams⟩ := List.forall_mem_cons.1 hIssued
      obtain ⟨hy, hParams'⟩ := List.forall_mem_cons.1 hIssued'
      exact .cons (sameTexts_name hx hy hHead) (ih hParams hParams' hTail)

theorem sameTexts_node {id id' : NodeId} {e e' : Expr Name} (hTree : a.tree? id = some e)
    (hTree' : b.tree? id' = some e') (hIssued : ∀ x ∈ e.names, i.Issued x)
    (hIssued' : ∀ y ∈ e'.names, j.Issued y) (hSame : e'.map j.lookup = e.map i.lookup) :
    (sameTexts i j B).node a id b id' :=
  ⟨e.map i.lookup, ⟨e, hTree, hIssued, rfl⟩, ⟨e', hTree', hIssued', hSame⟩⟩

theorem sameTexts_nodes {ids ids' : List NodeId} {es es' : List (Expr Name)}
    (hTrees : List.Forall₂ (fun id e => a.tree? id = some e) ids es)
    (hTrees' : List.Forall₂ (fun id e => b.tree? id = some e) ids' es')
    (hIssued : ∀ e ∈ es, ∀ x ∈ e.names, i.Issued x)
    (hIssued' : ∀ e ∈ es', ∀ y ∈ e.names, j.Issued y)
    (hSame : es'.map (Expr.map j.lookup) = es.map (Expr.map i.lookup)) :
    List.Forall₂ (fun id id' => (sameTexts i j B).node a id b id') ids ids' := by
  induction hTrees generalizing ids' es' with
  | nil =>
      obtain rfl := List.map_eq_nil_iff.1 hSame
      cases hTrees'
      exact .nil
  | cons hTree _ ih =>
      obtain ⟨e', es', rfl, hHead, hTail⟩ := List.map_eq_cons_iff.1 hSame
      cases hTrees' with
      | cons hTree' hTrees' =>
          obtain ⟨hE, hEs⟩ := List.forall_mem_cons.1 hIssued
          obtain ⟨hE', hEs'⟩ := List.forall_mem_cons.1 hIssued'
          exact .cons (sameTexts_node hTree hTree' hE hE' hHead) (ih hTrees' hEs hEs' hTail)

/-- Nodes that spell one expression are of one form. -/
theorem alike_node?_sameTexts {id id' : NodeId} (h : (sameTexts i j B).node a id b id') :
    Option.Rel (Node.Alike (sameTexts i j B) a b) (a.node? id) (b.node? id') := by
  obtain ⟨_, ⟨e, hTree, hIssued, rfl⟩, ⟨e', hTree', hIssued', hSame⟩⟩ := h
  obtain ⟨node, hNode, hAssembles⟩ := Arena.exists_assembles_of_tree? hTree
  obtain ⟨node', hNode', hAssembles'⟩ := Arena.exists_assembles_of_tree? hTree'
  rw [hNode, hNode']
  refine .some ?_
  cases hAssembles with
  | number | string | bool =>
      cases hAssembles' <;> simp only [Expr.map, reduceCtorEq] at hSame
      cases hSame
      constructor
  | identifier x =>
      cases hAssembles' <;> simp only [Expr.map, reduceCtorEq] at hSame
      simp only [Expr.names, List.forall_mem_singleton] at hIssued hIssued'
      exact .identifier (sameTexts_name hIssued hIssued' (Expr.identifier.inj hSame))
  | conditional hC hT hE =>
      cases hAssembles' <;> simp only [Expr.map, reduceCtorEq] at hSame
      next hC' hT' hE' =>
        simp only [Expr.names, List.forall_mem_append] at hIssued hIssued'
        obtain ⟨⟨hIssuedC, hIssuedT⟩, hIssuedE⟩ := hIssued
        obtain ⟨⟨hIssuedC', hIssuedT'⟩, hIssuedE'⟩ := hIssued'
        obtain ⟨hSameC, hSameT, hSameE⟩ := Expr.conditional.inj hSame
        exact .conditional (sameTexts_node hC hC' hIssuedC hIssuedC' hSameC)
          (sameTexts_node hT hT' hIssuedT hIssuedT' hSameT)
          (sameTexts_node hE hE' hIssuedE hIssuedE' hSameE)
  | lambda hParams hBody =>
      cases hAssembles' <;> simp only [Expr.map, reduceCtorEq] at hSame
      next hParams' hBody' =>
        simp only [Expr.names, List.forall_mem_append] at hIssued hIssued'
        obtain ⟨hSameParams, hSameBody⟩ := Expr.lambda.inj hSame
        refine .lambda ?_ (sameTexts_node hBody hBody' hIssued.2 hIssued'.2 hSameBody)
        rw [hParams, hParams']
        exact .some (sameTexts_names hIssued.1 hIssued'.1 hSameParams)
  | apply hCallee hIds hArgs =>
      cases hAssembles' <;> simp only [Expr.map, reduceCtorEq] at hSame
      next hCallee' hIds' hArgs' =>
        simp only [Expr.names, Expr.namesAll_eq_flatMap, List.forall_mem_append,
          List.forall_mem_flatMap] at hIssued hIssued'
        rw [Expr.mapAll_eq_map, Expr.mapAll_eq_map] at hSame
        obtain ⟨hSameCallee, hSameArgs⟩ := Expr.apply.inj hSame
        refine .apply (sameTexts_node hCallee hCallee' hIssued.1 hIssued'.1 hSameCallee) ?_
        rw [hIds, hIds']
        exact .some (sameTexts_nodes hArgs hArgs' hIssued.2 hIssued'.2 hSameArgs)

/-- Evaluation keeps the likeness of two interners if the identities are paired one to one. -/
theorem stable_sameTexts (hUnique : Relator.BiUnique B) : (sameTexts i j B).Stable where
  name_unique := by
    constructor
    · rintro x x' y ⟨t, hx, hy⟩ ⟨t', hx', hy'⟩
      obtain rfl := Interner.find?_injective hy hy'
      exact Option.some.inj (hx.symm.trans hx')
    · rintro x y y' ⟨t, hx, hy⟩ ⟨t', hx', hy'⟩
      obtain rfl := Interner.find?_injective hx hx'
      exact Option.some.inj (hy.symm.trans hy')
  identity_unique := hUnique
  node? := alike_node?_sameTexts

theorem lookup_eq_of_sameTexts {x y : Name} (h : (sameTexts i j B).name x y) :
    i.lookup x = j.lookup y := by
  obtain ⟨t, hx, hy⟩ := h
  rw [Interner.lookup_of_find? hx, Interner.lookup_of_find? hy]

end Likeness

/-- Alike values stay alike after more texts have got names and more closures have been made. -/
theorem Value.Alike.of_extends {v w : Value} (h : v.Alike (.sameTexts i j B) w)
    (hi : i.Extends i') (hj : j.Extends j') (hB : ∀ k l, B k l → B' k l) :
    v.Alike (.sameTexts i' j' B') w := by
  refine h.mono ?_ hB ?_ ?_
  · rintro x y ⟨t, hx, hy⟩
    exact ⟨t, hi.find? hx, hj.find? hy⟩
  · rintro a id b id' ⟨t, hSpells, hSpells'⟩
    exact ⟨t, hSpells.of_extends hi, hSpells'.of_extends hj⟩
  · rintro a id b id' x y ⟨t, hSpells, hSpells'⟩ hFree ⟨u', hx', hy'⟩
    -- A name that is free in the node has had its text from the start.
    obtain ⟨u, hText, hx⟩ := hSpells.exists_text hFree
    obtain ⟨z, hz⟩ := hSpells'.exists_name hText
    obtain rfl := Interner.find?_injective hx' (hi.find? hx)
    cases hy'.symm.trans (hj.find? hz)
    exact ⟨u', hx, hz⟩

/-- A closure that belongs to an interner and a supply of identities: all its names have texts, and
its identity has been given. -/
structure Closure.Known (i : Interner) (n : Nat) (c : Closure Value) : Prop where
  identity_lt : c.identity < n
  params : ∀ x ∈ c.params, i.Issued x
  body : ∃ t, c.arena.Spells i c.body t

/-- A value all of whose closures belong to an interner stands for itself. -/
theorem Value.Hereditarily.alike_self {n : Nat} {v : Value}
    (h : v.Hereditarily (Closure.Known i n)) :
    v.Alike (.sameTexts i i fun k l => k = l ∧ k < n) v := by
  induction h with
  | @closure c hHere _ ih =>
      obtain ⟨t, hBody⟩ := hHere.body
      have hParams := Likeness.sameTexts_names (B := fun k l => k = l ∧ k < n) hHere.params
        hHere.params rfl
      refine .of_env ⟨rfl, hHere.identity_lt⟩ hParams ⟨t, hBody, hBody⟩ ?_
      rintro x y ⟨u, hx, hy⟩ -
      cases hx.symm.trans hy
      cases hLookup : c.env.lookup x with
      | none => exact .none
      | some v => exact .some (ih v (Environment.mem_values_of_lookup hLookup))
  | _ => constructor

/-- Environments that bind the same texts to alike values. Every name that they bind has a text. -/
structure Environment.Corresponds (i j : Interner) (B : Nat → Nat → Prop)
    (env env' : Environment Value) : Prop where
  issued : ∀ x, (env.lookup x).isSome → i.Issued x
  issued' : ∀ y, (env'.lookup y).isSome → j.Issued y
  bound : ∀ t, Option.Rel (Value.Alike (.sameTexts i j B)) ((i.find? t).bind env.lookup)
    ((j.find? t).bind env'.lookup)

namespace Environment

/-- A text that gets its name later is not bound. -/
theorem bind_lookup_of_extends {env : Environment Value}
    (hIssued : ∀ x, (env.lookup x).isSome → i.Issued x) (h : i.Extends j) (t : String) :
    (j.find? t).bind env.lookup = (i.find? t).bind env.lookup := by
  cases hOld : i.find? t with
  | some x => rw [h.find? hOld]
  | none =>
      cases hNew : j.find? t with
      | none => rfl
      | some x =>
          rw [Option.bind_none, Option.bind_some, ← Option.not_isSome_iff_eq_none]
          intro hBound
          obtain ⟨u, hFind⟩ := hIssued x hBound
          obtain rfl := Interner.find?_injective hNew (h.find? hFind)
          exact absurd (hOld.symm.trans hFind) (by simp)

namespace Corresponds

variable {env env' : Environment Value}

theorem of_extends (h : env.Corresponds i j B env') (hi : i.Extends i') (hj : j.Extends j')
    (hB : ∀ k l, B k l → B' k l) : env.Corresponds i' j' B' env' := by
  refine ⟨fun x hx => hi.issued (h.issued x hx), fun y hy => hj.issued (h.issued' y hy),
    fun t => ?_⟩
  rw [bind_lookup_of_extends h.issued hi, bind_lookup_of_extends h.issued' hj]
  have hBound := h.bound t
  generalize (i.find? t).bind env.lookup = v, (j.find? t).bind env'.lookup = w at hBound
  cases hBound with
  | none => exact .none
  | some hAlike => exact .some (hAlike.of_extends hi hj hB)

theorem alikeOn (h : env.Corresponds i j B env') (S : Name → Prop) :
    env.AlikeOn (.sameTexts i j B) S env' := by
  rintro x y ⟨t, hx, hy⟩ -
  have hBound := h.bound t
  rwa [hx, hy] at hBound

theorem empty : (Environment.empty : Environment Value).Corresponds i j B .empty := by
  refine ⟨fun x hx => ?_, fun y hy => ?_, fun t => ?_⟩
  · cases hx
  · cases hy
  · cases i.find? t <;> cases j.find? t <;> exact .none

theorem bind (h : env.Corresponds i j B env') {t : String} {x y : Name} (hx : i.find? t = some x)
    (hy : j.find? t = some y) {v w : Value} (hValue : v.Alike (.sameTexts i j B) w) :
    (env.bind x v).Corresponds i j B (env'.bind y w) := by
  refine ⟨fun z hz => ?_, fun z hz => ?_, fun u => ?_⟩
  · by_cases hSame : z = x
    · exact ⟨t, hSame ▸ hx⟩
    · exact h.issued z (by simpa [lookup_bind, hSame] using hz)
  · by_cases hSame : z = y
    · exact ⟨t, hSame ▸ hy⟩
    · exact h.issued' z (by simpa [lookup_bind, hSame] using hz)
  · by_cases hSame : u = t
    · rw [hSame, hx, hy]
      simpa [lookup_bind] using hValue
    · -- Another text has other names.
      have hOther : ∀ {k : Interner} {z : Name} (e : Environment Value) (a : Value),
          k.find? t = some z →
            (k.find? u).bind (e.bind z a).lookup = (k.find? u).bind e.lookup := by
        intro k z e a hz
        cases hFind : k.find? u with
        | none => rfl
        | some z' =>
            have hNe : z' ≠ z := fun hEq => hSame (Interner.find?_injective (hEq ▸ hFind) hz)
            rw [Option.bind_some, Option.bind_some, lookup_bind, if_neg hNe]
      rw [hOther env v hx, hOther env' w hy]
      exact h.bound u

/-- An environment corresponds to itself if all its names and closures belong to the interner. -/
theorem self {n : Nat} (hIssued : ∀ x, (env.lookup x).isSome → i.Issued x)
    (hEnv : env.Hereditarily (Closure.Known i n)) :
    env.Corresponds i i (fun k l => k = l ∧ k < n) env := by
  refine ⟨hIssued, hIssued, fun t => ?_⟩
  cases hBound : (i.find? t).bind env.lookup with
  | none => exact .none
  | some v =>
      obtain ⟨x, -, hLookup⟩ := Option.bind_eq_some_iff.1 hBound
      exact .some (hEnv.lookup hLookup).alike_self

/-- Outermost environments correspond, whatever has been interned before them and after them. -/
theorem topEnvironment (hi : i.topEnvironment.2.Extends i') (hj : j.topEnvironment.2.Extends j') :
    i.topEnvironment.1.Corresponds i' j' B j.topEnvironment.1 := by
  have hIssued : ∀ {i i' : Interner}, i.topEnvironment.2.Extends i' →
      ∀ x, (i.topEnvironment.1.lookup x).isSome → i'.Issued x := by
    intro i i' h x hx
    obtain ⟨v, hLookup⟩ := Option.isSome_iff_exists.1 hx
    obtain ⟨op, hFind, -⟩ := (Interner.lookup_topEnvironment_eq_some_iff h).1 hLookup
    exact ⟨op.name, hFind⟩
  refine ⟨hIssued hi, hIssued hj, fun t => ?_⟩
  rw [Interner.bind_lookup_topEnvironment hi, Interner.bind_lookup_topEnvironment hj]
  cases Primitive.ofName? t with
  | none => exact .none
  | some op => exact .some (.primitive op)

end Corresponds

end Environment

end ArrowLisp
