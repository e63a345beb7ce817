import ArrowLisp.Proofs.Alike
import ArrowLisp.Proofs.Machine.Simulation

/-!
Runs that keep step. If nodes that stand for each other are of the same form and refer to nodes and
names that stand for each other, then two runs from places that stand for each other go on together,
step by step, and end alike after the same number of steps.
-/

namespace ArrowLisp

variable {L : Likeness}

/-- Nodes of the same form whose parts stand for each other. -/
inductive Node.Alike (L : Likeness) (a b : Arena) : Node → Node → Prop where
  | number (x : Float) : Alike L a b (.number x) (.number x)
  | string (s : String) : Alike L a b (.string s) (.string s)
  | bool (value : Bool) : Alike L a b (.bool value) (.bool value)
  | identifier {x y : Name} (hName : L.name x y) : Alike L a b (.identifier x) (.identifier y)
  | conditional {c t e c' t' e' : NodeId} (hCondition : L.node a c b c')
      (hConsequent : L.node a t b t') (hAlternative : L.node a e b e') :
      Alike L a b (.conditional c t e) (.conditional c' t' e')
  | lambda {span span' : Span} {body body' : NodeId}
      (hParams : Option.Rel (List.Forall₂ L.name) (a.params? span) (b.params? span'))
      (hBody : L.node a body b body') : Alike L a b (.lambda span body) (.lambda span' body')
  | apply {f f' : NodeId} {span span' : Span} (hCallee : L.node a f b f')
      (hArgs : Option.Rel (List.Forall₂ fun id id' => L.node a id b id')
        (a.args? span) (b.args? span')) :
      Alike L a b (.apply f span) (.apply f' span')

/-- A likeness that evaluation keeps: it is one-to-one where programs can compare, and it goes on
from nodes to their parts. -/
structure Likeness.Stable (L : Likeness) : Prop where
  name_unique : Relator.BiUnique L.name
  identity_unique : Relator.BiUnique L.identity
  node? : ∀ {a b : Arena} {id id' : NodeId}, L.node a id b id' →
    Option.Rel (Node.Alike L a b) (a.node? id) (b.node? id')

/-- Runs that end in the same way: with alike values, or with the same error. -/
inductive Outcome.Alike {ε : Type} (L : Likeness) : Outcome ε → Outcome ε → Prop where
  | value {v w : Value} (h : v.Alike L w) : Alike L (.value v) (.value w)
  | error (e : ε) : Alike L (.error e) (.error e)
  | dangling : Alike L .dangling .dangling
  | unfinished : Alike L .unfinished .unfinished

theorem Outcome.Relates.alike {ε : Type} {o o' : Outcome ε} (h : o.Relates (Value.Alike L) o') :
    o.Alike L o' := by
  cases h with
  | value hValue => exact .value hValue
  | _ => constructor

namespace Machine

variable {names names' : Interner}

/-- Places that stand for each other: the nodes do, and their free names are bound alike. -/
structure Scope.AlikeAt (L : Likeness) (scope : Scope) (id : NodeId) (scope' : Scope)
    (id' : NodeId) : Prop where
  node : L.node scope.arena id scope'.arena id'
  env : scope.env.AlikeOn L (scope.arena.Free · id) scope'.env

section Step

variable {scope scope' : Scope} {id id' : NodeId} {node node' : Node}

/-- The parts of places that stand for each other are such places if their nodes are. -/
theorem Scope.AlikeAt.child (h : scope.AlikeAt L id scope' id')
    (hNode : scope.arena.node? id = some node) (hOther : ∀ span body, node ≠ .lambda span body)
    {child child' : NodeId} (hMem : child ∈ scope.arena.children node)
    (hChild : L.node scope.arena child scope'.arena child') :
    scope.AlikeAt L child scope' child' :=
  ⟨hChild, h.env.mono fun _ hFree => hFree.of_child hNode hOther hMem⟩

theorem Scope.AlikeAt.args (h : scope.AlikeAt L id scope' id') {f : NodeId} {span : Span}
    (hNode : scope.arena.node? id = some (.apply f span)) {ids ids' : List NodeId}
    (hIds : scope.arena.args? span = some ids)
    (hArgs : List.Forall₂ (fun id id' => L.node scope.arena id scope'.arena id') ids ids') :
    List.Forall₂ (fun id id' => scope.AlikeAt L id scope' id') ids ids' := by
  have hMem : ∀ arg ∈ ids, arg ∈ scope.arena.children (.apply f span) := fun arg hArg => by
    simp [Arena.children, hIds, hArg]
  refine ((List.forall₂_and_left _ _).2 ⟨hMem, hArgs⟩).imp fun arg arg' hArg => ?_
  exact h.child hNode (by simp) hArg.1 hArg.2

/-- Alike values stand for each other, and so do places that bind the names that are free there
alike. -/
def Coupling.alike (L : Likeness) : Coupling where
  identity := L.identity
  value := Value.Alike L
  place scope id scope' id' := scope.AlikeAt L id scope' id'

/-- Nodes of one form begin in the same way where their names are bound alike. -/
theorem Scope.AlikeAt.nodes (h : scope.AlikeAt L id scope' id')
    (hTexts : ∀ x y, L.name x y → names.lookup x = names'.lookup y)
    (hNode : scope.arena.node? id = some node)
    (hNodes : node.Alike L scope.arena scope'.arena node') :
    (Coupling.alike L).Nodes names names' scope scope' node node' := by
  cases hNodes with
  | number x => exact .value rfl rfl (.number x)
  | string s => exact .value rfl rfl (.string s)
  | bool b => exact .value rfl rfl (.bool b)
  | @identifier x y hName =>
      have hValue := h.env x y hName (.identifier hNode)
      cases hLeft : scope.env.lookup x <;> cases hRight : scope'.env.lookup y <;>
        rw [hLeft, hRight] at hValue <;> cases hValue
      · exact .unbound hLeft hRight (hTexts x y hName)
      · next hValue => exact .value hLeft hRight hValue
  | conditional hC hT hE =>
      exact .conditional (h.child hNode (by simp) (by simp [Arena.children]) hC)
        (h.child hNode (by simp) (by simp [Arena.children]) hT)
        (h.child hNode (by simp) (by simp [Arena.children]) hE)
  | @lambda span span' body body' hParams hBody =>
      refine .lambda ?_
      cases hList : scope.arena.params? span <;> cases hList' : scope'.arena.params? span' <;>
        rw [hList, hList'] at hParams <;> cases hParams
      · exact .none
      · next params params' hParams =>
          refine .some fun k l hIdentity => .of_env hIdentity hParams hBody ?_
          exact h.env.mono fun x hFree => hFree.1.of_body hNode hList hFree.2
  | @apply f f' span span' hCallee hArgs =>
      refine .apply (h.child hNode (by simp) (by simp [Arena.children]) hCallee) ?_
      cases hList : scope.arena.args? span <;> cases hList' : scope'.arena.args? span' <;>
        rw [hList, hList'] at hArgs <;> cases hArgs
      · exact .none
      · next hArgs => exact .some (h.args hNode hList hArgs)

end Step

theorem Coupling.keepsStep_alike (hStable : L.Stable)
    (hTexts : ∀ x y, L.name x y → names.lookup x = names'.lookup y) :
    (Coupling.alike L).KeepsStep names names' := by
  intro scope id scope' id' hPlace
  have hNodes := hStable.node? hPlace.node
  rw [Coupling.Begins]
  cases hNode : scope.arena.node? id <;> cases hNode' : scope'.arena.node? id' <;>
    rw [hNode, hNode'] at hNodes <;> cases hNodes
  · exact .none
  · next hNodes => exact .some (hPlace.nodes hTexts hNode hNodes)

/-- Evaluation respects a likeness that is stable. -/
theorem Coupling.sound_alike (hStable : L.Stable) : (Coupling.alike L).Sound where
  unique := hStable.identity_unique
  resembles := Value.Alike.resembles
  number := .number
  bool := .bool
  length_eq h := by
    cases h with
    | closure _ hParams => exact hParams.length_eq
  body h hArgs hLength := by
    have hEnv := Value.Alike.env h
    cases h with
    | closure _ hParams hBody =>
        exact ⟨hBody, hEnv.withFrame hStable.name_unique hParams hArgs hLength⟩

/-- The evaluation of places that stand for each other ends alike. -/
theorem alike_eval (hStable : L.Stable)
    (hTexts : ∀ x y, L.name x y → names.lookup x = names'.lookup y) {arena arena' : Arena}
    {id id' : NodeId} {env env' : Environment Value} {next next' : Nat}
    (hNode : L.node arena id arena' id') (hEnv : env.AlikeOn L (arena.Free · id) env')
    (hIdentity : ∀ k, L.identity (next + k) (next' + k)) (limit : Nat) :
    (eval limit names arena id env next).1.Alike L
      (eval limit names' arena' id' env' next').1 := by
  have hStart : (Coupling.alike L).Moments (Coupling.alike L).place
      ⟨.eval ⟨arena, env⟩ id, [], next⟩ ⟨.eval ⟨arena', env'⟩ id', [], next'⟩ :=
    ⟨.eval ⟨hNode, hEnv⟩, .nil, hIdentity⟩
  have hKeeps := Coupling.keepsStep_alike hStable hTexts
  exact ((Coupling.sound_alike hStable).run hKeeps hStart limit).outcome.alike

end Machine

end ArrowLisp
