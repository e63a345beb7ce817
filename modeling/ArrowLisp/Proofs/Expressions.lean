import ArrowLisp.Expr

/-!
Induction on expressions. What holds of an expression whenever it holds of its parts, the arguments
of a call among them, holds of all expressions. Names that occur in an expression are told apart
from those that occur free: outside of all lambdas that declare them.
-/

namespace ArrowLisp.Expr

variable {ν μ : Type}

@[induction_eliminator]
theorem induction {motive : Expr ν → Prop} (number : ∀ x, motive (.number x))
    (string : ∀ s, motive (.string s)) (bool : ∀ b, motive (.bool b))
    (identifier : ∀ name, motive (.identifier name))
    (conditional : ∀ condition consequent alternative, motive condition → motive consequent →
      motive alternative → motive (.conditional condition consequent alternative))
    (lambda : ∀ params body, motive body → motive (.lambda params body))
    (apply : ∀ callee args, motive callee → (∀ arg ∈ args, motive arg) →
      motive (.apply callee args))
    (e : Expr ν) : motive e :=
  @Expr.rec ν motive (fun args => ∀ arg ∈ args, motive arg) number string bool identifier
    conditional lambda apply (by simp)
    (fun _ _ hHead hTail => List.forall_mem_cons.2 ⟨hHead, hTail⟩) e

mutual

/-- The identifiers and parameters of an expression, from left to right. -/
def names : Expr ν → List ν
  | .number _ | .string _ | .bool _ => []
  | .identifier name => [name]
  | .conditional condition consequent alternative =>
    condition.names ++ consequent.names ++ alternative.names
  | .lambda params body => params ++ body.names
  | .apply callee args => callee.names ++ namesAll args

/-- The names of expressions, from left to right. -/
def namesAll : List (Expr ν) → List ν
  | [] => []
  | e :: rest => e.names ++ namesAll rest

end

@[simp]
theorem namesAll_eq_flatMap (es : List (Expr ν)) : namesAll es = es.flatMap names := by
  induction es with
  | nil => rfl
  | cons e es ih => rw [namesAll, ih, List.flatMap_cons]

/-- A name has a free occurrence in an expression: one that is not inside a lambda that declares
the name. -/
inductive Free (x : ν) : Expr ν → Prop where
  | identifier : Free x (.identifier x)
  | condition {c t e : Expr ν} (h : Free x c) : Free x (.conditional c t e)
  | consequent {c t e : Expr ν} (h : Free x t) : Free x (.conditional c t e)
  | alternative {c t e : Expr ν} (h : Free x e) : Free x (.conditional c t e)
  | body {params : List ν} {body : Expr ν} (hParams : x ∉ params) (h : Free x body) :
      Free x (.lambda params body)
  | callee {f : Expr ν} {args : List (Expr ν)} (h : Free x f) : Free x (.apply f args)
  | arg {f arg : Expr ν} {args : List (Expr ν)} (hMem : arg ∈ args) (h : Free x arg) :
      Free x (.apply f args)

section Parts

variable {x : ν}

theorem free_identifier_iff {y : ν} : (identifier y).Free x ↔ y = x :=
  ⟨fun h => by cases h; rfl, fun h => h ▸ .identifier⟩

theorem free_conditional_iff {c t e : Expr ν} :
    (conditional c t e).Free x ↔ c.Free x ∨ t.Free x ∨ e.Free x := by
  constructor
  · intro h
    cases h with
    | condition h => exact .inl h
    | consequent h => exact .inr (.inl h)
    | alternative h => exact .inr (.inr h)
  · rintro (h | h | h)
    · exact .condition h
    · exact .consequent h
    · exact .alternative h

theorem free_lambda_iff {params : List ν} {body : Expr ν} :
    (lambda params body).Free x ↔ x ∉ params ∧ body.Free x :=
  ⟨fun h => by cases h with | body hParams h => exact ⟨hParams, h⟩, fun h => .body h.1 h.2⟩

theorem free_apply_iff {callee : Expr ν} {args : List (Expr ν)} :
    (apply callee args).Free x ↔ callee.Free x ∨ ∃ arg ∈ args, arg.Free x := by
  constructor
  · intro h
    cases h with
    | callee h => exact .inl h
    | arg hMem h => exact .inr ⟨_, hMem, h⟩
  · rintro (h | ⟨arg, hMem, h⟩)
    · exact .callee h
    · exact .arg hMem h

end Parts

theorem Free.mem_names {x : ν} {e : Expr ν} (h : e.Free x) : x ∈ e.names := by
  induction h with
  | arg hMem _ ih =>
      simp only [names, namesAll_eq_flatMap, List.mem_append, List.mem_flatMap]
      exact Or.inr ⟨_, hMem, ih⟩
  | _ => simp [names, *]

theorem names_map (f : ν → μ) (e : Expr ν) : (e.map f).names = e.names.map f := by
  induction e with
  | apply callee args ihCallee ihArgs =>
      simp only [map, names, mapAll_eq_map, namesAll_eq_flatMap, List.map_append, ihCallee,
        List.flatMap_map, List.map_flatMap]
      rw [List.flatMap_def, List.map_congr_left ihArgs, ← List.flatMap_def]
  | _ => simp [map, names, *]

/-- Two replacements that agree on the names of an expression do the same to it. -/
theorem map_congr {f g : ν → μ} {e : Expr ν} (h : ∀ x ∈ e.names, f x = g x) :
    e.map f = e.map g := by
  induction e with
  | number | string | bool => rfl
  | identifier name => rw [map, map, h name (List.mem_singleton_self name)]
  | conditional c t e ihC ihT ihE =>
      simp only [names, List.mem_append] at h
      rw [map, map, ihC fun x hx => h x (.inl (.inl hx)), ihT fun x hx => h x (.inl (.inr hx)),
        ihE fun x hx => h x (.inr hx)]
  | lambda params body ih =>
      simp only [names, List.mem_append] at h
      rw [map, map, ih fun x hx => h x (.inr hx),
        List.map_congr_left fun x hx => h x (.inl hx)]
  | apply callee args ihCallee ihArgs =>
      simp only [names, namesAll_eq_flatMap, List.mem_append, List.mem_flatMap] at h
      rw [map, map, mapAll_eq_map, mapAll_eq_map, ihCallee fun x hx => h x (.inl hx),
        List.map_congr_left fun arg hArg => ihArgs arg hArg fun x hx => h x (.inr ⟨arg, hArg, hx⟩)]

/-- A replacement that can be undone for the names of an expression can be undone. -/
theorem map_map_eq_self {f : ν → μ} {g : μ → ν} {e : Expr ν} (h : ∀ x ∈ e.names, g (f x) = x) :
    (e.map f).map g = e := by
  induction e with
  | number | string | bool => rfl
  | identifier name => rw [map, map, h name (List.mem_singleton_self name)]
  | conditional c t e ihC ihT ihE =>
      simp only [names, List.forall_mem_append] at h
      rw [map, map, ihC h.1.1, ihT h.1.2, ihE h.2]
  | lambda params body ih =>
      simp only [names, List.forall_mem_append] at h
      have hParams : params.map (g ∘ f) = params :=
        (List.map_congr_left (g := id) h.1).trans (List.map_id _)
      rw [map, map, ih h.2, List.map_map, hParams]
  | apply callee args ihCallee ihArgs =>
      simp only [names, namesAll_eq_flatMap, List.forall_mem_append, List.forall_mem_flatMap] at h
      have hArgs : args.map (map g ∘ map f) = args :=
        (List.map_congr_left (g := id) fun arg hArg => ihArgs arg hArg (h.2 arg hArg)).trans
          (List.map_id _)
      rw [map, map, mapAll_eq_map, mapAll_eq_map, ihCallee h.1, List.map_map, hArgs]

/-- A free name stays free in a replacement that puts its new name for no other. -/
theorem Free.map {f : ν → μ} {x : ν} {e : Expr ν} (h : e.Free x)
    (hOnly : ∀ y ∈ e.names, f y = f x → y = x) : (e.map f).Free (f x) := by
  induction h with
  | identifier => exact .identifier
  | condition _ ih => exact .condition (ih fun y hy => hOnly y (by simp [names, hy]))
  | consequent _ ih => exact .consequent (ih fun y hy => hOnly y (by simp [names, hy]))
  | alternative _ ih => exact .alternative (ih fun y hy => hOnly y (by simp [names, hy]))
  | body hParams _ ih =>
      refine .body (fun hMem => ?_) (ih fun y hy => hOnly y (by simp [names, hy]))
      obtain ⟨y, hy, hSame⟩ := List.mem_map.1 hMem
      exact hParams (hOnly y (by simp [names, hy]) hSame ▸ hy)
  | callee _ ih => exact .callee (ih fun y hy => hOnly y (by simp [names, hy]))
  | @arg callee arg args hMem _ ih =>
      have hArg : ∀ y ∈ arg.names, y ∈ (Expr.apply callee args).names := by
        intro y hy
        simp only [names, namesAll_eq_flatMap, List.mem_append, List.mem_flatMap]
        exact Or.inr ⟨arg, hMem, hy⟩
      have hMem' : arg.map f ∈ mapAll f args := by
        rw [mapAll_eq_map]
        exact List.mem_map_of_mem hMem
      exact .arg hMem' (ih fun y hy => hOnly y (hArg y hy))

end ArrowLisp.Expr
