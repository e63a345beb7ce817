import ArrowLisp.Proofs.Hereditary
import ArrowLisp.Proofs.Interning

/-!
The outermost environment. It binds the names of the primitives to the primitives, whichever numbers
these names have, and nothing else.
-/

namespace ArrowLisp

namespace Primitive

theorem mem_all (op : Primitive) : op ∈ all := by cases op <;> decide

theorem name_injective : Function.Injective name := by
  intro op op' h
  revert h
  cases op <;> cases op' <;> decide

theorem ofName?_eq_some_iff {t : String} {op : Primitive} :
    ofName? t = some op ↔ op.name = t := by
  constructor
  · intro h
    simpa using List.find?_some h
  · rintro rfl
    cases op <;> rfl

section Bindings

variable {j : Interner} {ops : List Primitive} {names : List Name} {x : Name} {v : Value}

theorem mem_zip_iff (h : List.Forall₂ (fun op x => j.find? op.name = some x) ops names) :
    (x, v) ∈ names.zip (ops.map Value.primitive) ↔
      ∃ op ∈ ops, j.find? op.name = some x ∧ v = .primitive op := by
  induction h with
  | nil => simp
  | cons hHead _ ih => simp [ih, hHead, eq_comm]

/-- A frame of primitives binds each of them under the name of its text. -/
theorem find?_ofList_eq_some_iff
    (h : List.Forall₂ (fun op x => j.find? op.name = some x) ops names) :
    (Frame.ofList (names.zip (ops.map Value.primitive))).find? x = some v ↔
      ∃ op ∈ ops, j.find? op.name = some x ∧ v = .primitive op := by
  rw [Frame.find?_ofList_eq_some_iff, mem_zip_iff h]
  intro v w hv hw
  obtain ⟨op, -, hName, rfl⟩ := (mem_zip_iff h).1 hv
  obtain ⟨op', -, hName', rfl⟩ := (mem_zip_iff h).1 hw
  rw [name_injective (Interner.find?_injective hName hName')]

end Bindings

end Primitive

namespace Interner

theorem topEnvironment_eq (i : Interner) :
    i.topEnvironment =
      (Environment.empty.withFrame ((i.internAll (Primitive.all.map Primitive.name)).1.zip
        (Primitive.all.map .primitive)), (i.internAll (Primitive.all.map Primitive.name)).2) := by
  simp only [topEnvironment]

theorem extends_topEnvironment (i : Interner) : i.Extends i.topEnvironment.2 := by
  simpa only [topEnvironment_eq] using i.extends_internAll _

/-- The outermost environment holds no closures. -/
theorem hereditarily_topEnvironment {P : Closure Value → Prop} (i : Interner) :
    i.topEnvironment.1.Hereditarily P := by
  have hPrimitives : ∀ v ∈ Primitive.all.map Value.primitive, v.Hereditarily P := by
    intro v hv
    obtain ⟨op, -, rfl⟩ := List.mem_map.1 hv
    exact .primitive op
  simp only [topEnvironment_eq]
  exact Environment.Hereditarily.empty.withFrame hPrimitives _

/-- Every primitive has got a name. -/
theorem exists_find?_topEnvironment (i : Interner) (op : Primitive) :
    ∃ x, i.topEnvironment.2.find? op.name = some x := by
  simp only [topEnvironment_eq]
  exact i.exists_find?_internAll (List.mem_map_of_mem op.mem_all)

/-- What the outermost environment binds: the names that stand for texts of primitives, to these
primitives. -/
theorem lookup_topEnvironment_eq_some_iff {i j : Interner} (h : i.topEnvironment.2.Extends j)
    {x : Name} {v : Value} :
    i.topEnvironment.1.lookup x = some v ↔
      ∃ op : Primitive, j.find? op.name = some x ∧ v = .primitive op := by
  have hNames := List.forall₂_map_left_iff.1 (i.find?_internAll (Primitive.all.map Primitive.name))
  simp only [topEnvironment_eq] at h ⊢
  rw [Environment.lookup_withFrame, show Environment.empty.lookup x = none from rfl, Option.or_none,
    Primitive.find?_ofList_eq_some_iff (hNames.imp fun _ _ => h.find?)]
  simp [Primitive.mem_all]

/-- Seen by texts: the outermost environment binds a text to the primitive of this name, if there is
one. -/
theorem bind_lookup_topEnvironment {i j : Interner} (h : i.topEnvironment.2.Extends j)
    (t : String) :
    (j.find? t).bind i.topEnvironment.1.lookup = (Primitive.ofName? t).map .primitive := by
  refine Option.ext fun v => ?_
  rw [Option.bind_eq_some_iff, Option.map_eq_some_iff]
  constructor
  · rintro ⟨x, hx, hLookup⟩
    obtain ⟨op, hOp, rfl⟩ := (lookup_topEnvironment_eq_some_iff h).1 hLookup
    exact ⟨op, Primitive.ofName?_eq_some_iff.2 (find?_injective hOp hx), rfl⟩
  · rintro ⟨op, hOp, rfl⟩
    obtain rfl := Primitive.ofName?_eq_some_iff.1 hOp
    obtain ⟨x, hx⟩ := exists_find?_topEnvironment i op
    exact ⟨x, h.find? hx, (lookup_topEnvironment_eq_some_iff h).2 ⟨op, h.find? hx, rfl⟩⟩

end Interner

end ArrowLisp
