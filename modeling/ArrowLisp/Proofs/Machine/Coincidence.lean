import ArrowLisp.Proofs.Machine.Lockstep
import ArrowLisp.Proofs.Pairing

/-!
Evaluation depends on what free names are bound to and on nothing else. Two environments may differ
in other bindings, in their frames and in their depth. Closures that come out of the two evaluations
have then captured different environments, but environments that agree once more on what is free in
the closures.
-/

namespace ArrowLisp

/-- The likeness under which nothing stands for anything but itself. -/
def Likeness.same : Likeness where
  name := Eq
  identity := Eq
  node a id b id' := a = b ∧ id = id'

theorem Node.alike_same {a : Arena} (node : Node) : node.Alike .same a a node := by
  cases node with
  | number x => exact .number x
  | string s => exact .string s
  | bool b => exact .bool b
  | identifier x => exact .identifier rfl
  | conditional c t e => exact .conditional ⟨rfl, rfl⟩ ⟨rfl, rfl⟩ ⟨rfl, rfl⟩
  | lambda span body =>
      have hNames : ∀ params, List.Forall₂ Likeness.same.name params params := fun params =>
        List.forall₂_same.2 fun _ _ => rfl
      exact .lambda (optionRel_self hNames _) ⟨rfl, rfl⟩
  | apply f span =>
      have hNodes : ∀ ids, List.Forall₂ (fun id id' => Likeness.same.node a id a id') ids ids :=
        fun ids => List.forall₂_same.2 fun _ _ => ⟨rfl, rfl⟩
      exact .apply ⟨rfl, rfl⟩ (optionRel_self hNodes _)

theorem Likeness.stable_same : same.Stable where
  name_unique := biUnique_eq
  identity_unique := biUnique_eq
  node? := by
    rintro a _ id _ ⟨rfl, rfl⟩
    exact optionRel_self Node.alike_same _

/-- Closures are alike under this likeness if at most their environments differ, and these agree on
what is free in the closures. -/
theorem Value.alike_same_closure_iff {c d : Closure Value} :
    Value.Alike .same (.closure c) (.closure d) ↔
      c.identity = d.identity ∧ c.params = d.params ∧ c.arena = d.arena ∧ c.body = d.body ∧
        ∀ x, c.Free x → Option.Rel (Value.Alike .same) (c.env.lookup x) (d.env.lookup x) := by
  constructor
  · intro h
    have hEnv := h.env
    cases h with
    | closure hIdentity hParams hBody =>
        exact ⟨hIdentity, List.forall₂_eq_eq_eq ▸ hParams, hBody.1, hBody.2,
          fun x => hEnv x x rfl⟩
  · rintro ⟨hIdentity, hParams, hArena, hBody, hEnv⟩
    refine .of_env hIdentity (hParams ▸ List.forall₂_same.2 fun _ _ => rfl) ⟨hArena, hBody⟩ ?_
    rintro x _ rfl
    exact hEnv x

/-- Every value stands for itself. -/
theorem Value.alike_same (v : Value) : v.Alike .same v := by
  have hAll : v.Hereditarily fun _ => True := .of_forall (fun _ => trivial) v
  induction hAll with
  | number x => exact .number x
  | bool b => exact .bool b
  | string s => exact .string s
  | primitive op => exact .primitive op
  | @closure c _ _ ih =>
      refine alike_same_closure_iff.2 ⟨rfl, rfl, rfl, rfl, fun x _ => ?_⟩
      cases hLookup : c.env.lookup x with
      | none => exact .none
      | some v => exact .some (ih v (Environment.mem_values_of_lookup hLookup))

namespace Machine

/-- Coincidence. If two environments bind the free names of an expression to the same values, or
both do not bind them, then evaluation in the one ends as in the other: after as many steps, with
the same error, or with values that are the same up to bindings that are not free in them. -/
theorem coincidence {arena : Arena} {id : NodeId} (hArena : arena.WellFormed)
    (hId : id.index < arena.size) :
    ∃ e, arena.tree? id = some e ∧
      ∀ (env env' : Environment Value), (∀ x, e.Free x → env.lookup x = env'.lookup x) →
        ∀ (names : Interner) (next limit : Nat),
          (eval limit names arena id env next).1.Alike .same
            (eval limit names arena id env' next).1 := by
  obtain ⟨e, hTree⟩ := hArena.exists_tree? hId
  refine ⟨e, hTree, fun env env' hSame names next limit => ?_⟩
  have hEnv : env.AlikeOn .same (arena.Free · id) env' := by
    rintro x _ rfl hFree
    rw [hSame x ((Arena.free_iff_of_tree? hTree).1 hFree)]
    exact optionRel_self Value.alike_same _
  exact alike_eval Likeness.stable_same (fun x y hName => congrArg names.lookup hName) ⟨rfl, rfl⟩
    hEnv (fun _ => rfl) limit

/-- A lambda evaluated in two environments of different depth that both bind its one free name. -/
theorem coincidence_of_closures :
    ∃ c d, (eval 2 .empty ⟨#[.identifier ⟨0⟩, .lambda ⟨0, 1⟩ ⟨0⟩], #[], #[⟨1⟩]⟩ ⟨1⟩
        (.bind .empty ⟨0⟩ (.bool true)) 0).1 = .value (.closure c) ∧
      (eval 2 .empty ⟨#[.identifier ⟨0⟩, .lambda ⟨0, 1⟩ ⟨0⟩], #[], #[⟨1⟩]⟩ ⟨1⟩
        (.bind (.bind .empty ⟨0⟩ (.bool true)) ⟨2⟩ (.bool false)) 0).1 = .value (.closure d) ∧
      c.env.depth ≠ d.env.depth ∧ Value.Alike .same (.closure c) (.closure d) := by
  have hArena : Arena.WellFormed ⟨#[.identifier ⟨0⟩, .lambda ⟨0, 1⟩ ⟨0⟩], #[], #[⟨1⟩]⟩ := by
    constructor <;> rintro ⟨_ | _ | i⟩ n hNode <;> simp [Arena.node?] at hNode <;> subst hNode <;>
      simp [Arena.children, Arena.ListsWithin]
  obtain ⟨e, hTree, hSame⟩ := coincidence hArena (show (⟨1⟩ : NodeId).index < 2 by decide)
  cases hTree
  have hLookup : ∀ x, (Expr.lambda [⟨1⟩] (.identifier ⟨0⟩)).Free x →
      (Environment.empty.bind ⟨0⟩ (.bool true)).lookup x =
        ((Environment.empty.bind ⟨0⟩ (.bool true)).bind ⟨2⟩ (Value.bool false)).lookup x := by
    intro x hFree
    obtain ⟨-, hBody⟩ := Expr.free_lambda_iff.1 hFree
    obtain rfl := Expr.free_identifier_iff.1 hBody
    rfl
  have hOutcome := hSame _ _ hLookup .empty 0 2
  cases hOutcome with
  | value hValue => exact ⟨_, _, rfl, rfl, by decide, hValue⟩

end Machine

end ArrowLisp
