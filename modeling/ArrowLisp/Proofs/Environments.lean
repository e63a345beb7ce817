import ArrowLisp.Environment
import Mathlib.Data.List.Forall2
import Mathlib.Data.List.Nodup

/-!
What an environment binds. A frame made of a list of bindings holds the last one of each name, and
a new frame hides the outer bindings of its own names and no others.
-/

namespace ArrowLisp

variable {α : Type}

theorem optionRel_iff {β : Type} {R : α → β → Prop} {o : Option α} {o' : Option β} :
    Option.Rel R o o' ↔
      o.isSome = o'.isSome ∧ ∀ v w, o = some v → o' = some w → R v w := by
  constructor
  · rintro (h | -)
    · exact ⟨rfl, fun _ _ hv hw => Option.some.inj hv ▸ Option.some.inj hw ▸ h⟩
    · exact ⟨rfl, fun _ _ hv => by cases hv⟩
  · rintro ⟨hSame, h⟩
    cases o <;> cases o' <;> simp at hSame
    · exact .none
    · exact .some (h _ _ rfl rfl)

theorem optionRel_self {R : α → α → Prop} (h : ∀ v, R v v) (o : Option α) :
    Option.Rel R o o := by
  cases o with
  | none => exact .none
  | some v => exact .some (h v)

namespace Frame

theorem find?_insert (f : Frame α) (name : Name) (value : α) (x : Name) :
    (f.insert name value).find? x = if x = name then some value else f.find? x := by
  have hFilter : (f.bindings.filter (·.1 ≠ name)).lookup x =
      if x = name then none else f.bindings.lookup x := by
    induction f.bindings with
    | nil => simp
    | cons b bs ih =>
        by_cases hb : b.1 = name <;> by_cases hx : x = b.1 <;> grind
  grind [insert, find?]

/-- Everything that is bound after an insertion was bound before or has just been inserted. -/
theorem mem_bindings_insert {f : Frame α} {name : Name} {value : α} {b : Name × α}
    (h : b ∈ (f.insert name value).bindings) : b = (name, value) ∨ b ∈ f.bindings := by
  rcases List.mem_cons.1 h with rfl | hOld
  · exact Or.inl rfl
  · exact Or.inr (List.mem_filter.1 hOld).1

/-- Bindings made one after another, looked up: the last one of a name counts, and without one the
frame from which it started. -/
theorem find?_foldl_insert (bindings : List (Name × α)) (f : Frame α) (x : Name) :
    (bindings.foldl (fun f (name, value) => f.insert name value) f).find? x =
      (bindings.reverse.lookup x).or (f.find? x) := by
  induction bindings generalizing f with
  | nil => simp
  | cons b bs ih =>
      obtain ⟨name, value⟩ := b
      rw [List.foldl_cons, ih, find?_insert, List.reverse_cons, List.lookup_append]
      have hOne : [(name, value)].lookup x = if x = name then some value else none := by
        by_cases hx : x = name
        · simp [hx]
        · simp [List.lookup_cons, beq_eq_false_iff_ne.2 hx, hx]
      rw [hOne, Option.or_assoc]
      split <;> rfl

theorem find?_ofList (bindings : List (Name × α)) (x : Name) :
    (ofList bindings).find? x = bindings.reverse.lookup x := by
  rw [ofList, find?_foldl_insert]
  simp [find?]

theorem mem_bindings_ofList {bindings : List (Name × α)} {b : Name × α}
    (h : b ∈ (ofList bindings).bindings) : b ∈ bindings := by
  have hFold : ∀ (bs : List (Name × α)) (f : Frame α),
      b ∈ (bs.foldl (fun f (name, value) => f.insert name value) f).bindings →
        b ∈ bs ∨ b ∈ f.bindings := by
    intro bs
    induction bs with
    | nil => exact fun f h => Or.inr h
    | cons c bs ih =>
        intro f h
        rcases ih _ h with hRest | hInsert
        · exact Or.inl (List.mem_cons_of_mem c hRest)
        · rcases mem_bindings_insert hInsert with rfl | hOld
          · exact Or.inl List.mem_cons_self
          · exact Or.inr hOld
  simpa using hFold bindings ⟨[]⟩ h

/-- A frame binds the names that its bindings are for, and no others. -/
theorem isSome_find?_ofList (bindings : List (Name × α)) (x : Name) :
    ((ofList bindings).find? x).isSome ↔ x ∈ bindings.map Prod.fst := by
  rw [find?_ofList, ← List.mem_reverse, ← List.map_reverse]
  induction bindings.reverse with
  | nil => simp
  | cons b bs ih =>
      obtain ⟨name, value⟩ := b
      by_cases hx : x = name
      · simp [hx]
      · simp [List.lookup_cons, beq_eq_false_iff_ne.2 hx, hx, ih]

/-- The order of the bindings does not matter for a name that has but one value in them. -/
theorem find?_ofList_eq_some_iff {bindings : List (Name × α)} {x : Name} {v : α}
    (hOne : ∀ v w, (x, v) ∈ bindings → (x, w) ∈ bindings → v = w) :
    (ofList bindings).find? x = some v ↔ (x, v) ∈ bindings := by
  have hMem : ∀ {w}, (ofList bindings).find? x = some w → (x, w) ∈ bindings := by
    intro w hFind
    obtain ⟨before, after, hSplit, -⟩ := List.lookup_eq_some_iff.1 (find?_ofList .. ▸ hFind)
    rw [← List.mem_reverse, hSplit]
    simp
  refine ⟨hMem, fun h => ?_⟩
  have hBound := (isSome_find?_ofList bindings x).2 (List.mem_map_of_mem h)
  obtain ⟨w, hFind⟩ := Option.isSome_iff_exists.1 hBound
  rw [hFind, hOne v w h (hMem hFind)]

/-- As many values as names: all names are bound, and no others. -/
theorem isSome_find?_ofList_zip {names : List Name} {values : List α}
    (hLength : names.length = values.length) (x : Name) :
    ((ofList (names.zip values)).find? x).isSome ↔ x ∈ names := by
  rw [isSome_find?_ofList, List.map_fst_zip (Nat.le_of_eq hLength)]

/-- Two names are bound alike in frames that bind values alike, position by position, and bind the
one name where they bind the other. -/
theorem rel_find?_ofList_zip {β : Type} {V : α → β → Prop} {names names' : List Name} {x y : Name}
    {vs : List α} {ws : List β} (hNames : List.Forall₂ (fun z z' => x = z ↔ y = z') names names')
    (hValues : List.Forall₂ V vs ws) :
    Option.Rel V ((ofList (names.zip vs)).find? x) ((ofList (names'.zip ws)).find? y) := by
  have hZip : List.Forall₂ (fun b b' => (x = b.1 ↔ y = b'.1) ∧ V b.2 b'.2) (names.zip vs)
      (names'.zip ws) := by
    induction hNames generalizing vs ws with
    | nil => exact .nil
    | cons hName _ ih =>
        cases hValues with
        | nil => exact .nil
        | cons hValue hValues => exact .cons ⟨hName, hValue⟩ (ih hValues)
  rw [find?_ofList, find?_ofList]
  -- The last binding of a name counts, so the induction is on the reversed lists.
  have hReverse := List.rel_reverse hZip
  clear hZip
  generalize (names.zip vs).reverse = bs, (names'.zip ws).reverse = bs' at hReverse
  induction hReverse with
  | nil => exact .none
  | @cons b b' _ _ hHead _ ih =>
      obtain ⟨z, v⟩ := b
      obtain ⟨z', v'⟩ := b'
      obtain ⟨hSame, hValue⟩ := hHead
      rw [List.lookup_cons, List.lookup_cons]
      by_cases hx : x = z
      · simpa [hx, hSame.1 hx] using hValue
      · simpa [beq_eq_false_iff_ne.2 hx, beq_eq_false_iff_ne.2 (mt hSame.2 hx)] using ih

end Frame

namespace Environment

theorem lookup_withFrame (e : Environment α) (bindings : List (Name × α)) (x : Name) :
    (e.withFrame bindings).lookup x = ((Frame.ofList bindings).find? x).or (e.lookup x) := by
  cases h : (Frame.ofList bindings).find? x <;> simp [lookup, withFrame, h]

/-- Names that are bound alike in new frames, or behind them if the frames do not bind them, are
bound alike. -/
theorem rel_lookup_withFrame {β : Type} {V : α → β → Prop} {e : Environment α} {e' : Environment β}
    {bs : List (Name × α)} {bs' : List (Name × β)} {x y : Name}
    (hFrame : Option.Rel V ((Frame.ofList bs).find? x) ((Frame.ofList bs').find? y))
    (hOuter : (Frame.ofList bs).find? x = none → Option.Rel V (e.lookup x) (e'.lookup y)) :
    Option.Rel V ((e.withFrame bs).lookup x) ((e'.withFrame bs').lookup y) := by
  rw [lookup_withFrame, lookup_withFrame]
  generalize (Frame.ofList bs).find? x = found, (Frame.ofList bs').find? y = found' at hFrame hOuter
  cases hFrame with
  | some h => exact .some h
  | none => exact hOuter rfl

/-- One frame with the visible bindings of some names. -/
def only (e : Environment α) (names : List Name) : Environment α :=
  empty.withFrame (names.filterMap fun x => (e.lookup x).map fun v => (x, v))

theorem lookup_only_eq_some_iff {e : Environment α} {names : List Name} {x : Name} {v : α} :
    (e.only names).lookup x = some v ↔ x ∈ names ∧ e.lookup x = some v := by
  rw [only, lookup_withFrame, show (empty : Environment α).lookup x = none from rfl,
    Option.or_none, Frame.find?_ofList_eq_some_iff]
  · simp
  · simp +contextual

theorem lookup_only {e : Environment α} {names : List Name} {x : Name} (h : x ∈ names) :
    (e.only names).lookup x = e.lookup x :=
  Option.ext fun _ => lookup_only_eq_some_iff.trans (and_iff_right h)

theorem lookup_bind (e : Environment α) (name : Name) (value : α) (x : Name) :
    (e.bind name value).lookup x = if x = name then some value else e.lookup x := by
  rw [bind, lookup_withFrame, Frame.ofList, Frame.find?_foldl_insert]
  by_cases hx : x = name
  · simp [hx]
  · simp [List.lookup_cons, beq_eq_false_iff_ne.2 hx, hx, Frame.find?]

/-- An extension that succeeds is a new frame with as many values as names. -/
theorem extend_eq_ok_iff {e e' : Environment α} {names : List Name} {values : List α} :
    e.extend names values = .ok e' ↔
      names.length = values.length ∧ e' = e.withFrame (names.zip values) := by
  unfold extend
  split <;> simp_all [eq_comm]

/-- Distinct names look up as the values that they have been bound to. -/
theorem lookup_of_extend {e e' : Environment α} {names : List Name} {values : List α}
    (hExtend : e.extend names values = .ok e') (hNodup : names.Nodup) {x : Name} {v : α}
    (h : (x, v) ∈ names.zip values) : e'.lookup x = some v := by
  obtain ⟨hLength, rfl⟩ := extend_eq_ok_iff.1 hExtend
  rw [← List.map_fst_zip (Nat.le_of_eq hLength)] at hNodup
  have hFind : (Frame.ofList (names.zip values)).find? x = some v := by
    refine (Frame.find?_ofList_eq_some_iff fun v w hv hw => ?_).2 h
    exact (Prod.mk.inj (List.inj_on_of_nodup_map hNodup hv hw rfl)).2
  rw [lookup_withFrame, hFind, Option.some_or]

/-- Everything that is bound in an environment, hidden by an inner frame or not. -/
def values (e : Environment α) : List α :=
  e.frames.flatMap fun f => f.bindings.map Prod.snd

@[simp]
theorem values_empty : (empty : Environment α).values = [] := rfl

theorem mem_values_of_lookup {e : Environment α} {x : Name} {v : α} (h : e.lookup x = some v) :
    v ∈ e.values := by
  obtain ⟨f, hFrame, hFind⟩ := List.exists_of_findSome?_eq_some h
  obtain ⟨before, after, hBindings, -⟩ := List.lookup_eq_some_iff.1 hFind
  simp only [values, List.mem_flatMap, List.mem_map]
  exact ⟨f, hFrame, (x, v), by simp [hBindings], rfl⟩

theorem mem_values_withFrame {e : Environment α} {bindings : List (Name × α)} {v : α}
    (h : v ∈ (e.withFrame bindings).values) : v ∈ bindings.map Prod.snd ∨ v ∈ e.values := by
  rw [values, withFrame, List.flatMap_cons, List.mem_append] at h
  rcases h with hNew | hOld
  · obtain ⟨b, hb, rfl⟩ := List.mem_map.1 hNew
    exact Or.inl (List.mem_map_of_mem (Frame.mem_bindings_ofList hb))
  · exact Or.inr hOld

/-- What is bound in such an environment is visible in the one that it was made from. -/
theorem exists_lookup_of_mem_values_only {e : Environment α} {names : List Name} {v : α}
    (h : v ∈ (e.only names).values) : ∃ x ∈ names, e.lookup x = some v := by
  rcases mem_values_withFrame h with hNew | hOld
  · simpa using hNew
  · cases hOld

theorem mem_values_withFrame_zip {e : Environment α} {names : List Name} {vs : List α} {v : α}
    (h : v ∈ (e.withFrame (names.zip vs)).values) : v ∈ vs ∨ v ∈ e.values := by
  rcases mem_values_withFrame h with hNew | hOld
  · obtain ⟨b, hb, rfl⟩ := List.mem_map.1 hNew
    exact Or.inl (List.of_mem_zip hb).2
  · exact Or.inr hOld

end Environment

end ArrowLisp
