import ArrowLisp.Primitive.Apply
import ArrowLisp.Proofs.Environments

/-!
What holds of all closures in a value: of the value itself, of those in the environment that it has
captured, of those in the environments of these, and so on. Bindings that are hidden by an inner
frame count as well.
-/

namespace ArrowLisp

variable {P R : Closure Value → Prop}

/-- A value all of whose closures have a property. -/
inductive Value.Hereditarily (P : Closure Value → Prop) : Value → Prop where
  | number (x : Float) : Hereditarily P (.number x)
  | bool (b : Bool) : Hereditarily P (.bool b)
  | string (s : String) : Hereditarily P (.string s)
  | primitive (op : Primitive) : Hereditarily P (.primitive op)
  | closure {c : Closure Value} (hHere : P c) (hEnv : ∀ v ∈ c.env.values, Hereditarily P v) :
      Hereditarily P (.closure c)

/-- An environment that binds only such values. -/
def Environment.Hereditarily (P : Closure Value → Prop) (env : Environment Value) : Prop :=
  ∀ v ∈ env.values, v.Hereditarily P

/-- What an environment binds is smaller than a closure that has captured the environment. -/
theorem Closure.sizeOf_lt_of_mem_values {c : Closure Value} {v : Value} (h : v ∈ c.env.values) :
    sizeOf v < sizeOf c := by
  obtain ⟨identity, params, body, ⟨frames⟩, arena⟩ := c
  obtain ⟨f, hFrame, hValue⟩ := List.mem_flatMap.1 h
  obtain ⟨⟨name, v⟩, hBinding, rfl⟩ := List.mem_map.1 hValue
  obtain ⟨bindings⟩ := f
  have hFrames := List.sizeOf_lt_of_mem hFrame
  have hBindings := List.sizeOf_lt_of_mem hBinding
  simp only [Closure.mk.sizeOf_spec, Environment.mk.sizeOf_spec, Frame.mk.sizeOf_spec,
    Prod.mk.sizeOf_spec] at *
  omega

namespace Value.Hereditarily

/-- A property that all closures have, all closures in a value have. -/
theorem of_forall (h : ∀ c, P c) : ∀ v : Value, v.Hereditarily P
  | .number x => .number x
  | .bool b => .bool b
  | .string s => .string s
  | .primitive op => .primitive op
  | .closure c => .closure (h c) fun v hMem =>
      have _hLt := Closure.sizeOf_lt_of_mem_values hMem
      of_forall h v
termination_by v => sizeOf v
decreasing_by
  rw [Value.closure.sizeOf_spec]
  omega

theorem mono {v : Value} (hImp : ∀ c, P c → R c) (h : v.Hereditarily P) : v.Hereditarily R := by
  induction h with
  | closure hHere _ ih => exact .closure (hImp _ hHere) ih
  | _ => constructor

theorem here {c : Closure Value} (h : (Value.closure c).Hereditarily P) : P c := by
  cases h with
  | closure hHere _ => exact hHere

theorem env {c : Closure Value} (h : (Value.closure c).Hereditarily P) : c.env.Hereditarily P := by
  cases h with
  | closure _ hEnv => exact hEnv

end Value.Hereditarily

namespace Environment.Hereditarily

variable {env : Environment Value}

theorem mono (hImp : ∀ c, P c → R c) (h : env.Hereditarily P) : env.Hereditarily R :=
  fun v hMem => (h v hMem).mono hImp

theorem empty : (Environment.empty : Environment Value).Hereditarily P := by
  intro v hMem
  simp at hMem

theorem lookup (h : env.Hereditarily P) {x : Name} {v : Value} (hLookup : env.lookup x = some v) :
    v.Hereditarily P :=
  h v (mem_values_of_lookup hLookup)

theorem withFrame (h : env.Hereditarily P) {vs : List Value} (hValues : ∀ v ∈ vs, v.Hereditarily P)
    (names : List Name) : (env.withFrame (names.zip vs)).Hereditarily P := by
  intro v hMem
  rcases mem_values_withFrame_zip hMem with hNew | hOld
  · exact hValues v hNew
  · exact h v hOld

theorem bind (h : env.Hereditarily P) {v : Value} (hValue : v.Hereditarily P) (name : Name) :
    (env.bind name v).Hereditarily P :=
  h.withFrame (List.forall_mem_singleton.2 hValue) [name]

theorem extend (h : env.Hereditarily P) {vs : List Value} (hValues : ∀ v ∈ vs, v.Hereditarily P)
    {names : List Name} {env' : Environment Value} (hExtend : env.extend names vs = .ok env') :
    env'.Hereditarily P := by
  obtain ⟨-, rfl⟩ := extend_eq_ok_iff.1 hExtend
  exact h.withFrame hValues names

end Environment.Hereditarily

namespace Primitive

theorem number_or_bool_of_onNumbers {op : Primitive} {x y : Float} {v : Value}
    (h : op.onNumbers x y = .ok v) : (∃ z, v = .number z) ∨ ∃ b, v = .bool b := by
  cases op with
  | add | subtract | multiply => cases h; exact Or.inl ⟨_, rfl⟩
  | atMost => cases h; exact Or.inr ⟨_, rfl⟩
  | equal | constTrue | constFalse | error => cases h
  | divide =>
      rw [onNumbers] at h
      split at h <;> cases h
      exact Or.inl ⟨_, rfl⟩

/-- Primitives answer with numbers and truth values only. -/
theorem number_or_bool_of_apply {op : Primitive} {args : List Value} {v : Value}
    (h : op.apply args = .ok v) : (∃ z, v = .number z) ∨ ∃ b, v = .bool b := by
  unfold apply at h
  split at h
  · cases h
  · cases h
    exact Or.inr ⟨_, rfl⟩
  · split at h
    · split at h
      · exact number_or_bool_of_onNumbers h
      · cases h
    · cases h
  · cases h

theorem hereditarily_of_apply {op : Primitive} {args : List Value} {v : Value}
    (h : op.apply args = .ok v) : v.Hereditarily P := by
  rcases number_or_bool_of_apply h with ⟨x, rfl⟩ | ⟨b, rfl⟩
  · exact .number x
  · exact .bool b

end Primitive

end ArrowLisp
