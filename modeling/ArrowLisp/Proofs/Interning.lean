import ArrowLisp.Interner
import Mathlib.Data.List.Forall2

/-!
Names stay what they are. Interning more strings changes neither the name of an earlier string nor
the string of an earlier name.
-/

namespace ArrowLisp.Interner

/-- Every name of the first interner stands for the same string in the second. -/
def Extends (i j : Interner) : Prop :=
  ∀ (k : Nat) (t : String), i.strings[k]? = some t → j.strings[k]? = some t

theorem Extends.refl (i : Interner) : i.Extends i := fun _ _ h => h

theorem Extends.trans {i j k : Interner} (hij : i.Extends j) (hjk : j.Extends k) : i.Extends k :=
  fun index t h => hjk index t (hij index t h)

theorem extends_intern (i : Interner) (s : String) : i.Extends (i.intern s).2 := by
  intro k t h
  unfold intern
  split
  · exact h
  · obtain ⟨hBound, -⟩ := Array.getElem?_eq_some_iff.1 h
    rw [Array.getElem?_push_lt hBound, ← h, Array.getElem?_eq_getElem hBound]

/-- The place of a string that has just been interned holds this string. -/
theorem strings_intern (i : Interner) (s : String) :
    (i.intern s).2.strings[(i.intern s).1.index]? = some s := by
  unfold intern
  split
  · next name hFind =>
      obtain ⟨k, hPosition, rfl⟩ := Option.map_eq_some_iff.1 hFind
      exact (i.positions_iff s k).1 hPosition
  · simp [size]

/-- The text of a name that has just been given, now and after any further interning. -/
theorem lookup_intern {i j : Interner} {s : String} (h : (i.intern s).2.Extends j) :
    j.lookup (i.intern s).1 = s := by
  rw [lookup, h _ _ (i.strings_intern s), Option.getD_some]

/-- The name of a text stands at its place among the strings. -/
theorem find?_eq_some_iff {i : Interner} {t : String} {x : Name} :
    i.find? t = some x ↔ i.strings[x.index]? = some t := by
  rw [find?, ← i.positions_iff, Option.map_eq_some_iff]
  constructor
  · rintro ⟨k, hPosition, rfl⟩
    exact hPosition
  · exact fun hPosition => ⟨x.index, hPosition, rfl⟩

/-- A name that this interner has given to a text. -/
def Issued (i : Interner) (x : Name) : Prop := ∃ t, i.find? t = some x

theorem Extends.find? {i j : Interner} (h : i.Extends j) {t : String} {x : Name}
    (hFind : i.find? t = some x) : j.find? t = some x :=
  find?_eq_some_iff.2 (h _ _ (find?_eq_some_iff.1 hFind))

theorem Extends.issued {i j : Interner} (h : i.Extends j) {x : Name} (hIssued : i.Issued x) :
    j.Issued x := by
  obtain ⟨t, hFind⟩ := hIssued
  exact ⟨t, h.find? hFind⟩

theorem lookup_of_find? {i : Interner} {t : String} {x : Name} (h : i.find? t = some x) :
    i.lookup x = t := by
  rw [lookup, find?_eq_some_iff.1 h, Option.getD_some]

/-- A name is given to one text only. -/
theorem find?_injective {i : Interner} {s t : String} {x : Name} (hs : i.find? s = some x)
    (ht : i.find? t = some x) : s = t :=
  (lookup_of_find? hs).symm.trans (lookup_of_find? ht)

theorem Issued.find?_lookup {i : Interner} {x : Name} (h : i.Issued x) :
    i.find? (i.lookup x) = some x := by
  obtain ⟨t, hFind⟩ := h
  rw [lookup_of_find? hFind, hFind]

theorem Issued.lookup_injective {i : Interner} {x y : Name} (hx : i.Issued x) (hy : i.Issued y)
    (h : i.lookup x = i.lookup y) : x = y := by
  have hFind := hx.find?_lookup
  rw [h, hy.find?_lookup] at hFind
  exact (Option.some.inj hFind).symm

/-- The text of a name stays what it is. -/
theorem Extends.lookup_eq {i j : Interner} (h : i.Extends j) {x : Name} (hx : i.Issued x) :
    j.lookup x = i.lookup x :=
  lookup_of_find? (h.find? hx.find?_lookup)

theorem find?_intern (i : Interner) (s : String) :
    (i.intern s).2.find? s = some (i.intern s).1 :=
  find?_eq_some_iff.2 (i.strings_intern s)

theorem internAll_append (i : Interner) (before after : List String) :
    (i.internAll (before ++ after)).2 = ((i.internAll before).2.internAll after).2 := by
  induction before generalizing i with
  | nil => rfl
  | cons text before ih => exact ih (i.intern text).2

theorem extends_internAll (i : Interner) (texts : List String) :
    i.Extends (i.internAll texts).2 := by
  induction texts generalizing i with
  | nil => exact .refl i
  | cons t ts ih => exact (i.extends_intern t).trans (ih _)

/-- Texts that are interned together get their names, in order. -/
theorem find?_internAll (i : Interner) (texts : List String) :
    List.Forall₂ (fun t x => (i.internAll texts).2.find? t = some x) texts
      (i.internAll texts).1 := by
  induction texts generalizing i with
  | nil => exact .nil
  | cons t ts ih => exact .cons ((extends_internAll _ ts).find? (i.find?_intern t)) (ih _)

theorem exists_find?_internAll (i : Interner) {texts : List String} {t : String} (h : t ∈ texts) :
    ∃ x, (i.internAll texts).2.find? t = some x := by
  induction texts generalizing i with
  | nil => cases h
  | cons u us ih =>
      rcases List.mem_cons.1 h with rfl | hRest
      · exact ⟨_, (extends_internAll _ us).find? (i.find?_intern t)⟩
      · exact ih _ hRest

end ArrowLisp.Interner
