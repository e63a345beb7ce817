import ArrowLisp.Proofs.Arena.WellFormed
import ArrowLisp.Proofs.Machine.Jobs
import ArrowLisp.Proofs.Machine.Simulation
import ArrowLisp.Proofs.Rewriting

/-!
Evaluation of rewritten expressions. Closures that come out of it may have different bodies, other
parameters and environments of another depth, but the body of the one can be rewritten into that of
the other, and what is put for an identifier has the value of the identifier. So the two evaluations
go on together, except that the first one also evaluates the constant conditions.
-/

namespace ArrowLisp

open ArrowLisp.Expr (Rewriting)

/-- The value of an expression that is a literal or an identifier. -/
def Expr.value? (env : Environment Value) : Expr Name → Option Value
  | .number x => some (.number x)
  | .string s => some (.string s)
  | .bool b => some (.bool b)
  | .identifier x => env.lookup x
  | .conditional .. | .lambda .. | .apply .. => none

/-- A node stands for an expression that can be rewritten into that of another node. A node of an
arena of which nothing is known is only left as it is. -/
inductive Arena.Rewrites (N : Rewriting Name) : Arena → NodeId → Arena → NodeId → Prop where
  | same {a : Arena} {id : NodeId} (h : ∀ x, N x (.identifier x)) : Rewrites N a id a id
  | trees {a b : Arena} {id id' : NodeId} {e e' : Expr Name} (hTree : a.tree? id = some e)
      (hTree' : b.tree? id' = some e') (h : e.Rewrites N e') : Rewrites N a id b id'

/-- Values of which the second comes from the first by rewriting the bodies of closures. What is put
for an identifier of a body has the value of the identifier, or neither has one and both are
reported as the same unbound text. -/
inductive Value.Rewrites (names : Interner) (B : Nat → Nat → Prop) : Value → Value → Prop where
  | number (x : Float) : Rewrites names B (.number x) (.number x)
  | bool (b : Bool) : Rewrites names B (.bool b) (.bool b)
  | string (s : String) : Rewrites names B (.string s) (.string s)
  | primitive (op : Primitive) : Rewrites names B (.primitive op) (.primitive op)
  | closure {c d : Closure Value} {N : Rewriting Name} (hIdentity : B c.identity d.identity)
      (hLength : c.params.length = d.params.length)
      (hBody : Arena.Rewrites (N.under c.params d.params) c.arena c.body d.arena d.body)
      (hBound : ∀ x t, N x t → (c.env.lookup x).isSome = (t.value? d.env).isSome)
      (hUnbound : ∀ x t, N x t → c.env.lookup x = none →
        ∃ y, t = .identifier y ∧ names.lookup x = names.lookup y)
      (hValues : ∀ x t v w, N x t → c.env.lookup x = some v → t.value? d.env = some w →
        Rewrites names B v w) :
      Rewrites names B (.closure c) (.closure d)

/-- What is put for an identifier has the value of the identifier. -/
def Environment.Rewrites (names : Interner) (B : Nat → Nat → Prop) (N : Rewriting Name)
    (env env' : Environment Value) : Prop :=
  ∀ x t, N x t → Option.Rel (Value.Rewrites names B) (env.lookup x) (t.value? env') ∧
    (env.lookup x = none → ∃ y, t = .identifier y ∧ names.lookup x = names.lookup y)

variable {names : Interner} {B : Nat → Nat → Prop} {N : Rewriting Name}

namespace Value.Rewrites

variable {v w : Value} {c d : Closure Value}

theorem of_env (hIdentity : B c.identity d.identity) (hLength : c.params.length = d.params.length)
    (hBody : Arena.Rewrites (N.under c.params d.params) c.arena c.body d.arena d.body)
    (hEnv : c.env.Rewrites names B N d.env) : Rewrites names B (.closure c) (.closure d) :=
  .closure hIdentity hLength hBody (fun x t h => (optionRel_iff.1 (hEnv x t h).1).1)
    (fun x t h => (hEnv x t h).2) fun x t v w h => (optionRel_iff.1 (hEnv x t h).1).2 v w

theorem exists_env (h : Rewrites names B (.closure c) (.closure d)) :
    ∃ N : Rewriting Name,
      Arena.Rewrites (N.under c.params d.params) c.arena c.body d.arena d.body ∧
        c.env.Rewrites names B N d.env := by
  cases h with
  | closure _ _ hBody hBound hUnbound hValues =>
      exact ⟨_, hBody, fun x t h => ⟨optionRel_iff.2
        ⟨hBound x t h, fun v w => hValues x t v w h⟩, hUnbound x t h⟩⟩

theorem resembles (h : Rewrites names B v w) : v.Resembles B w := by
  cases h with
  | closure hIdentity => exact .closure hIdentity
  | _ => constructor

end Value.Rewrites

/-- An environment need not be rewritten if its values need not be. -/
theorem Environment.Rewrites.of_values {env : Environment Value}
    (h : ∀ v ∈ env.values, v.Rewrites names B v) : env.Rewrites names B .same env := by
  rintro x _ rfl
  refine ⟨?_, fun _ => ⟨x, rfl, rfl⟩⟩
  rw [Expr.value?]
  cases hLookup : env.lookup x with
  | none => exact .none
  | some v => exact .some (h v (mem_values_of_lookup hLookup))

/-- A value need not be rewritten if its closures may keep their identities. -/
theorem Value.Rewrites.self {v : Value} (h : v.Hereditarily fun c => B c.identity c.identity) :
    v.Rewrites names B v := by
  induction h with
  | closure hIdentity _ ih =>
      exact .of_env (N := .same) hIdentity rfl (.same fun x => Rewriting.under_self (.inr rfl))
        (.of_values ih)
  | _ => constructor

theorem Expr.value?_withFrame {t : Expr Name} {env : Environment Value}
    {bindings : List (Name × Value)}
    (h : ∀ y, t = .identifier y → (Frame.ofList bindings).find? y = none) :
    t.value? (env.withFrame bindings) = t.value? env := by
  cases t with
  | identifier y => rw [value?, Environment.lookup_withFrame, h y rfl, Option.none_or, value?]
  | _ => rfl

namespace Environment.Rewrites

variable {env env' : Environment Value}

theorem self (h : env.Hereditarily fun c => B c.identity c.identity) :
    env.Rewrites names B .same env :=
  .of_values fun v hMem => .self (h v hMem)

/-- In a new frame parameters have the values of those that have been put for them, and behind it
everything is as it was. -/
theorem withFrame (h : env.Rewrites names B N env') {params params' : List Name}
    {vs ws : List Value} (hArgs : List.Forall₂ (Value.Rewrites names B) vs ws)
    (hLength : params.length = vs.length) :
    (env.withFrame (params.zip vs)).Rewrites names B (N.under params params')
      (env'.withFrame (params'.zip ws)) := by
  intro x t hxt
  by_cases hx : x ∈ params
  · obtain ⟨y, -, rfl⟩ := (Rewriting.mem_iff_of_under hxt).1 hx
    have hSame : List.Forall₂ (fun z z' => x = z ↔ y = z') params params' :=
      hxt.2.imp fun _ _ hParam => by simpa using hParam
    obtain ⟨v, hFind⟩ :=
      Option.isSome_iff_exists.1 ((Frame.isSome_find?_ofList_zip hLength x).2 hx)
    refine ⟨rel_lookup_withFrame (Frame.rel_find?_ofList_zip hSame hArgs) fun hNone => ?_,
      fun hNone => ?_⟩
    · cases hFind.symm.trans hNone
    · rw [lookup_withFrame, hFind] at hNone
      cases hNone
  · have hLength' : params'.length = ws.length :=
      hxt.2.length_eq.symm.trans (hLength.trans hArgs.length_eq)
    have hOther : ∀ y, t = .identifier y → (Frame.ofList (params'.zip ws)).find? y = none := by
      intro y hy
      rw [← Option.not_isSome_iff_eq_none, Frame.isSome_find?_ofList_zip hLength']
      exact fun hMem => hx ((Rewriting.mem_iff_of_under hxt).2 ⟨y, hMem, hy⟩)
    have hNone : (Frame.ofList (params.zip vs)).find? x = none := by
      rw [← Option.not_isSome_iff_eq_none, Frame.isSome_find?_ofList_zip hLength]
      exact hx
    rw [Expr.value?_withFrame hOther, lookup_withFrame, hNone, Option.none_or]
    exact h x t (hxt.1.resolve_left hx)

theorem bind (h : env.Rewrites names B N env') {v w : Value} (hValue : v.Rewrites names B w)
    (x y : Name) : (env.bind x v).Rewrites names B (N.under [x] [y]) (env'.bind y w) :=
  h.withFrame (List.Forall₂.cons hValue .nil)
    (List.length_singleton.trans List.length_singleton.symm)

end Environment.Rewrites

namespace Machine

/-- The coupling of two evaluations of which the second one is that of a rewritten expression. -/
def Coupling.rewriting (names : Interner) (B : Nat → Nat → Prop) : Coupling where
  identity := B
  value := Value.Rewrites names B
  place scope id scope' id' := ∃ N : Rewriting Name, scope.env.Rewrites names B N scope'.env ∧
    Arena.Rewrites N scope.arena id scope'.arena id'

theorem Coupling.sound_rewriting (hUnique : Relator.BiUnique B) :
    (Coupling.rewriting names B).Sound where
  unique := hUnique
  resembles := Value.Rewrites.resembles
  number := .number
  bool := .bool
  length_eq h := by
    cases h with
    | closure _ hLength => exact hLength
  body h hArgs hLength := by
    obtain ⟨N, hBody, hEnv⟩ := Value.Rewrites.exists_env h
    exact ⟨_, hEnv.withFrame hArgs hLength, hBody⟩

/-- A node that is left as it is begins in the same way. -/
theorem begins_rewriting_same {a : Arena} {env env' : Environment Value}
    (hEnv : env.Rewrites names B N env') (hSame : ∀ x, N x (.identifier x)) (id : NodeId) :
    (Coupling.rewriting names B).Begins names names ⟨a, env⟩ id ⟨a, env'⟩ id := by
  have hPlace : ∀ id, (Coupling.rewriting names B).place ⟨a, env⟩ id ⟨a, env'⟩ id := fun id =>
    ⟨N, hEnv, .same hSame⟩
  refine optionRel_self (fun node => ?_) _
  cases node with
  | number x => exact .value rfl rfl (.number x)
  | string s => exact .value rfl rfl (.string s)
  | bool b => exact .value rfl rfl (.bool b)
  | identifier x =>
      obtain ⟨hValue, -⟩ := hEnv x _ (hSame x)
      cases hLeft : env.lookup x <;> cases hRight : env'.lookup x <;>
        rw [hLeft, Expr.value?, hRight] at hValue <;> cases hValue
      · exact .unbound hLeft hRight rfl
      · next hValue => exact .value hLeft hRight hValue
  | conditional c t e => exact .conditional (hPlace c) (hPlace t) (hPlace e)
  | lambda span body =>
      refine .lambda (optionRel_self (fun params k l hIdentity => ?_) _)
      exact .of_env hIdentity rfl (.same fun x => Rewriting.under_self (.inr (hSame x))) hEnv
  | apply f span =>
      exact .apply (hPlace f)
        (optionRel_self (fun ids => List.forall₂_same.2 fun id _ => hPlace id) _)

section Trees

variable {scope scope' : Scope} {id id' : NodeId} {e e' : Expr Name} {v w : Value}

/-- The node of a literal or of an identifier has the value of the expression. -/
theorem exists_node_of_value? {a : Arena} {env : Environment Value} (hTree : a.tree? id = some e)
    (h : e.value? env = some v) : ∃ node, a.node? id = some node ∧ node.value? env = some v := by
  obtain ⟨node, hNode, hAssembles⟩ := Arena.exists_assembles_of_tree? hTree
  refine ⟨node, hNode, ?_⟩
  cases hAssembles <;> exact h

theorem steps_ret_of_value? (hTree : scope.arena.tree? id = some e)
    (h : e.value? scope.env = some v) (waiting : List Awaiting) (n : Nat) :
    Steps names ⟨.eval scope id, waiting, n⟩ ⟨.ret v, waiting, n⟩ := by
  obtain ⟨node, hNode, hValue⟩ := exists_node_of_value? hTree h
  exact advance_eval hNode (evalNode_of_value? hValue waiting n)

/-- A constant condition leads to its branch. -/
theorem exists_reaches_branch (names : Interner) {b : Bool} {t : Expr Name}
    (hTree : scope.arena.tree? id = some (.conditional (.bool b) t e)) :
    ∃ id₁, scope.arena.tree? id₁ = some (if b then t else e) ∧ ∀ waiting n,
      Reaches names ⟨.eval scope id, waiting, n⟩ ⟨.eval scope id₁, waiting, n⟩ := by
  obtain ⟨c, t, e, hNode, hCondition, hT, hE⟩ := Arena.exists_conditional_of_tree? hTree
  have hStart : ∀ waiting n, Reaches names ⟨.eval scope id, waiting, n⟩
      ⟨.ret (.bool b), .condition scope t e :: waiting, n⟩ := fun waiting n =>
    .head (advance_eval hNode rfl) (.single (steps_ret_of_value? hCondition rfl _ n))
  cases b with
  | true => exact ⟨t, hT, fun waiting n => (hStart waiting n).tail rfl⟩
  | false => exact ⟨e, hE, fun waiting n => (hStart waiting n).tail rfl⟩

theorem begins_rewriting_values (hTree : scope.arena.tree? id = some e)
    (hTree' : scope'.arena.tree? id' = some e') (h : e.value? scope.env = some v)
    (h' : e'.value? scope'.env = some w) (hValue : v.Rewrites names B w) :
    (Coupling.rewriting names B).Begins names names scope id scope' id' := by
  obtain ⟨node, hNode, hLeft⟩ := exists_node_of_value? hTree h
  obtain ⟨node', hNode', hRight⟩ := exists_node_of_value? hTree' h'
  exact Coupling.Nodes.begins (.value hLeft hRight hValue) hNode hNode'

/-- Arguments are rewritten one by one. -/
theorem forall₂_place_rewriting (hEnv : scope.env.Rewrites names B N scope'.env)
    {ids ids' : List NodeId} {es es' : List (Expr Name)}
    (hTrees : List.Forall₂ (fun id e => scope.arena.tree? id = some e) ids es)
    (hTrees' : List.Forall₂ (fun id e => scope'.arena.tree? id = some e) ids' es')
    (h : List.Forall₂ (Expr.Rewrites N) es es') :
    List.Forall₂ (fun id id' => (Coupling.rewriting names B).place scope id scope' id')
      ids ids' := by
  induction h generalizing ids ids' with
  | nil =>
      cases hTrees
      cases hTrees'
      exact .nil
  | cons hHead _ ih =>
      cases hTrees with
      | cons hTree hTrees =>
          cases hTrees' with
          | cons hTree' hTrees' =>
              exact .cons ⟨N, hEnv, .trees hTree hTree' hHead⟩ (ih hTrees hTrees')

/-- Nodes of rewritten expressions begin in the same way, once the first evaluation has passed all
constant conditions on its way. -/
theorem beginsLater_rewriting (hTree : scope.arena.tree? id = some e)
    (hTree' : scope'.arena.tree? id' = some e') (h : e.Rewrites N e')
    (hEnv : scope.env.Rewrites names B N scope'.env) :
    (Coupling.rewriting names B).BeginsLater names names scope id scope' id' := by
  induction h generalizing id with
  | number x => exact (begins_rewriting_values hTree hTree' rfl rfl (.number x)).later
  | string s => exact (begins_rewriting_values hTree hTree' rfl rfl (.string s)).later
  | bool b => exact (begins_rewriting_values hTree hTree' rfl rfl (.bool b)).later
  | @identifier N x t h =>
      obtain ⟨hValue, hUnbound⟩ := hEnv x t h
      cases hLeft : scope.env.lookup x with
      | some v =>
          rw [hLeft] at hValue
          generalize hRight : t.value? scope'.env = o at hValue
          cases hValue with
          | some hValue => exact (begins_rewriting_values hTree hTree' hLeft hRight hValue).later
      | none =>
          obtain ⟨y, rfl, hText⟩ := hUnbound hLeft
          obtain ⟨node, hNode, ⟨⟩⟩ := Arena.exists_assembles_of_tree? hTree
          obtain ⟨node', hNode', ⟨⟩⟩ := Arena.exists_assembles_of_tree? hTree'
          rw [hLeft] at hValue
          generalize hRight : (Expr.identifier y).value? scope'.env = o at hValue
          cases hValue with
          | none => exact (Coupling.Nodes.begins (.unbound hLeft hRight hText) hNode hNode').later
  | conditional hC hT hE =>
      obtain ⟨c, t, e, hNode, hTreeC, hTreeT, hTreeE⟩ := Arena.exists_conditional_of_tree? hTree
      obtain ⟨c', t', e', hNode', hTreeC', hTreeT', hTreeE'⟩ :=
        Arena.exists_conditional_of_tree? hTree'
      have hNodes : (Coupling.rewriting names B).Nodes names names scope scope' _ _ :=
        .conditional ⟨_, hEnv, .trees hTreeC hTreeC' hC⟩ ⟨_, hEnv, .trees hTreeT hTreeT' hT⟩
          ⟨_, hEnv, .trees hTreeE hTreeE' hE⟩
      exact (hNodes.begins hNode hNode').later
  | lambda hLength hBody =>
      obtain ⟨span, body, hNode, hParams, hTreeBody⟩ := Arena.exists_lambda_of_tree? hTree
      obtain ⟨span', body', hNode', hParams', hTreeBody'⟩ := Arena.exists_lambda_of_tree? hTree'
      refine (Coupling.Nodes.begins (.lambda ?_) hNode hNode').later
      rw [hParams, hParams']
      exact .some fun k l hIdentity =>
        .of_env hIdentity hLength (.trees hTreeBody hTreeBody' hBody) hEnv
  | apply hCallee hLength hArgs =>
      obtain ⟨f, span, ids, hNode, hTreeF, hIds, hTrees⟩ := Arena.exists_apply_of_tree? hTree
      obtain ⟨f', span', ids', hNode', hTreeF', hIds', hTrees'⟩ :=
        Arena.exists_apply_of_tree? hTree'
      have hPlace : (Coupling.rewriting names B).place scope f scope' f' :=
        ⟨_, hEnv, .trees hTreeF hTreeF' hCallee⟩
      refine (Coupling.Nodes.begins (.apply hPlace ?_) hNode hNode').later
      rw [hIds, hIds']
      exact .some (forall₂_place_rewriting hEnv hTrees hTrees'
        (List.forall₂_iff_zip.2 ⟨hLength, hArgs⟩))
  | branch b h ih =>
      obtain ⟨id₁, hTree₁, hReaches₁⟩ := exists_reaches_branch names hTree
      obtain ⟨id₂, hReaches₂, hBegins⟩ := ih hTree₁ hTree' hEnv
      exact ⟨id₂, fun waiting n => (hReaches₁ waiting n).trans (hReaches₂ waiting n), hBegins⟩

end Trees

/-- The evaluation of a rewritten expression is at most behind. -/
theorem Coupling.catchesUp_rewriting : (Coupling.rewriting names B).CatchesUp names names := by
  rintro scope id scope' id' ⟨N, hEnv, hRewrites⟩
  obtain ⟨arena, env⟩ := scope
  obtain ⟨arena', env'⟩ := scope'
  cases hRewrites with
  | same hSame => exact (begins_rewriting_same hEnv hSame id).later
  | trees hTree hTree' h => exact beginsLater_rewriting hTree hTree' h hEnv

end Machine

end ArrowLisp
