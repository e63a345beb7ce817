import ArrowLisp.Proofs.Interning
import Mathlib.Data.List.Basic
import Mathlib.Data.List.Nodup

/-!
The history of an interner. Whatever strings have been interned in one that was fresh, its table
lists them once each, in the order in which they first came, and every name that it has given is the
place of its string in this table. As long as there are numbers left no string is refused.
-/

namespace ArrowLisp.Interner

variable {i : Interner} {s : String}

/-- Intern strings from left to right, up to the first one for which no number is left. -/
def tryInternAll (i : Interner) : List String → Except InternError (List Name × Interner)
  | [] => .ok ([], i)
  | s :: rest => do
    let (name, i) ← i.tryIntern s
    let (names, i) ← i.tryInternAll rest
    return (name :: names, i)

/-- No string stands at two places of the table. -/
theorem nodup_strings (i : Interner) : i.strings.toList.Nodup := by
  rw [List.nodup_iff_getElem?_ne_getElem?]
  intro j k hLt hBound hSame
  rw [Array.getElem?_toList, Array.getElem?_toList] at hSame
  have hString : i.strings[k]? = some i.strings[k] := Array.getElem?_eq_getElem hBound
  have hPlace := (i.positions_iff _ _).2 (hSame.trans hString)
  rw [(i.positions_iff _ _).2 hString, Option.some.injEq] at hPlace
  omega

theorem exists_find?_iff_mem : (∃ x, i.find? s = some x) ↔ s ∈ i.strings.toList := by
  simp only [find?_eq_some_iff, List.mem_iff_getElem?, Array.getElem?_toList]
  exact ⟨fun ⟨x, h⟩ => ⟨x.index, h⟩, fun ⟨k, h⟩ => ⟨⟨k⟩, h⟩⟩

theorem find?_eq_none_iff_notMem : i.find? s = none ↔ s ∉ i.strings.toList := by
  rw [← exists_find?_iff_mem, Option.eq_none_iff_forall_ne_some, not_exists]

/-- A name is the place of its string in the table. -/
theorem find?_eq_some_iff_idxOf {x : Name} :
    i.find? s = some x ↔ s ∈ i.strings.toList ∧ x = ⟨i.strings.toList.idxOf s⟩ := by
  rw [find?_eq_some_iff, ← Array.getElem?_toList]
  constructor
  · intro h
    obtain ⟨hBound, hString⟩ := List.getElem?_eq_some_iff.1 h
    refine ⟨List.mem_iff_getElem?.2 ⟨_, h⟩, ?_⟩
    rw [← hString, i.nodup_strings.idxOf_getElem]
  · rintro ⟨hMem, rfl⟩
    have hBound := List.idxOf_lt_length_iff.2 hMem
    rw [List.getElem?_eq_getElem hBound, List.getElem_idxOf]

theorem intern_of_mem (h : s ∈ i.strings.toList) :
    i.intern s = (⟨i.strings.toList.idxOf s⟩, i) := by
  have hFind := find?_eq_some_iff_idxOf.2 ⟨h, rfl⟩
  unfold intern
  split
  · next x hx => rw [Option.some.inj (hx.symm.trans hFind)]
  · next hNone => simp [hNone] at hFind

theorem strings_intern_of_notMem (h : s ∉ i.strings.toList) :
    (i.intern s).2.strings.toList = i.strings.toList ++ [s] := by
  have hFind := find?_eq_none_iff_notMem.2 h
  unfold intern
  split
  · next x hx => simp [hx] at hFind
  · simp

/-- Interning adds the strings that are not there yet, each when it first comes. -/
theorem strings_internAll (i : Interner) (texts : List String) :
    (i.internAll texts).2.strings.toList =
      i.strings.toList ++ (texts.removeAll i.strings.toList).eraseDups := by
  induction texts generalizing i with
  | nil => simp [internAll, List.removeAll]
  | cons s rest ih =>
      by_cases hMem : s ∈ i.strings.toList
      · have hRest : (s :: rest).removeAll i.strings.toList = rest.removeAll i.strings.toList := by
          simp only [List.removeAll, List.elem_eq_mem, List.filter_cons, hMem]
          rfl
        rw [internAll, intern_of_mem hMem, ih, hRest]
      · have hRest : (s :: rest).removeAll i.strings.toList =
            s :: rest.removeAll i.strings.toList := by
          simp only [List.removeAll, List.elem_eq_mem, List.filter_cons, hMem]
          rfl
        have hLater : rest.removeAll (i.strings.toList ++ [s]) =
            (rest.removeAll i.strings.toList).filter fun t => !t == s := by
          rw [List.removeAll, List.removeAll, List.filter_filter]
          refine List.filter_congr fun t _ => ?_
          simp [Bool.and_comm, beq_eq_decide]
        rw [internAll, ih, strings_intern_of_notMem hMem, hRest, List.eraseDups_cons, hLater,
          List.append_assoc, List.singleton_append]

/-- With numbers left for all new strings, none is refused. -/
theorem tryInternAll_eq_ok (i : Interner) (texts : List String)
    (hRoom : (i.internAll texts).2.size ≤ capacity) :
    i.tryInternAll texts = .ok (i.internAll texts) := by
  induction texts generalizing i with
  | nil => rfl
  | cons s rest ih =>
      have hFirst : i.tryIntern s = .ok (i.intern s) := by
        refine if_neg ?_
        rintro ⟨hNew, hFull⟩
        have hFresh := find?_eq_none_iff_notMem.1 (Option.isNone_iff_eq_none.1 hNew)
        have hFirst := congrArg List.length (strings_intern_of_notMem hFresh)
        have hAll := congrArg List.length (strings_internAll (i.intern s).2 rest)
        simp only [List.length_append, Array.length_toList, List.length_singleton] at hFirst hAll
        simp only [internAll, size] at hRoom hFull
        omega
      have hRest := ih (i.intern s).2 hRoom
      simp only [tryInternAll, hFirst, bind, Except.bind, hRest]
      rfl

/-- What an interner that was fresh holds after some strings have been interned in it, in this
order, and what names it has given to them. -/
structure Records (i : Interner) (texts : List String) (names : List Name) : Prop where
  /-- The table lists the distinct strings in order of first occurrence. -/
  strings_eq : i.strings.toList = texts.eraseDups
  /-- The map from strings to places is the inverse of the table. -/
  positions_iff : ∀ (s : String) (k : Nat), i.positions[s]? = some k ↔ texts.eraseDups[k]? = some s
  size_eq : i.size = texts.eraseDups.length
  /-- Every call has given the place of its string. -/
  names_eq : names = texts.map fun s => ⟨texts.eraseDups.idxOf s⟩
  /-- Two names are equal exactly if their strings are. -/
  name_eq_iff : ∀ p ∈ names.zip texts, ∀ q ∈ names.zip texts, p.1 = q.1 ↔ p.2 = q.2
  /-- A name that has been given has its string, now and after any later calls. -/
  lookup_eq : ∀ p ∈ names.zip texts, ∀ (later : List String) (names' : List Name) (j : Interner),
    i.tryInternAll later = .ok (names', j) → j.lookup p.1 = p.2
  /-- To intern a known string once more changes nothing. -/
  tryIntern_known : ∀ s ∈ texts, i.tryIntern s = .ok (⟨texts.eraseDups.idxOf s⟩, i)
  lookup_beyond : ∀ x, i.size ≤ x.index → i.lookup x = ""

theorem extends_of_tryInternAll {j : Interner} {texts : List String} {names : List Name}
    (h : i.tryInternAll texts = .ok (names, j)) : i.Extends j := by
  induction texts generalizing i names with
  | nil => cases h; exact .refl _
  | cons s rest ih =>
      rw [tryInternAll, tryIntern] at h
      split at h
      · cases h
      · cases hRest : (i.intern s).2.tryInternAll rest with
        | error e => simp [hRest, bind, Except.bind] at h
        | ok r =>
            simp only [hRest, bind, Except.bind, pure, Except.pure, Except.ok.injEq,
              Prod.mk.injEq] at h
            obtain ⟨-, rfl⟩ := h
            exact (i.extends_intern s).trans (ih hRest)

/-- After any strings have been interned in a fresh interner, at most as many distinct ones as there
are numbers, none has been refused and the interner records just what came when. -/
theorem records_of_history (texts : List String) (hRoom : texts.eraseDups.length ≤ capacity) :
    ∃ names i, empty.tryInternAll texts = .ok (names, i) ∧ i.Records texts names := by
  have hStrings : (empty.internAll texts).2.strings.toList = texts.eraseDups := by
    simpa [empty, List.removeAll] using strings_internAll empty texts
  have hSize : (empty.internAll texts).2.size = texts.eraseDups.length := by
    rw [← hStrings, Array.length_toList, size]
  have hFinds := find?_internAll empty texts
  have hAll := tryInternAll_eq_ok empty texts (hSize ▸ hRoom)
  generalize empty.internAll texts = r at *
  obtain ⟨names, i⟩ := r
  have hMem : ∀ s ∈ texts, s ∈ i.strings.toList := by
    intro s hs
    rwa [hStrings, List.mem_eraseDups]
  have hGiven : ∀ p ∈ names.zip texts, i.find? p.2 = some p.1 :=
    fun p hp => List.forall₂_zip hFinds.flip hp
  have hName : ∀ s x, i.find? s = some x → x = ⟨texts.eraseDups.idxOf s⟩ :=
    fun s x h => hStrings ▸ (find?_eq_some_iff_idxOf.1 h).2
  refine ⟨names, i, hAll, hStrings, ?_, hSize, ?_, ?_, ?_, ?_, ?_⟩
  · intro s k
    rw [i.positions_iff, ← hStrings, Array.getElem?_toList]
  · rw [← List.forall₂_eq_eq_eq, List.forall₂_map_right_iff]
    exact hFinds.flip.imp fun x s h => hName s x h
  · intro p hp q hq
    refine ⟨fun hSame => find?_injective (hGiven p hp) (hSame ▸ hGiven q hq), fun hSame => ?_⟩
    exact Option.some.inj ((hGiven p hp).symm.trans (hSame ▸ hGiven q hq))
  · intro p hp later names' j hLater
    exact lookup_of_find? ((extends_of_tryInternAll hLater).find? (hGiven p hp))
  · intro s hs
    have hKnown := intern_of_mem (hMem s hs)
    rw [hStrings] at hKnown
    rw [tryIntern, find?_eq_some_iff_idxOf.2 ⟨hMem s hs, rfl⟩, hKnown]
    rfl
  · intro x hx
    rw [lookup, Array.getElem?_eq_none hx, Option.getD_none]

/-- A string that comes twice and the empty string, which has a name of its own. -/
theorem records_of_history_repeated :
    ["x", "if", "x", ""].eraseDups.length ≤ capacity ∧
      ∃ i, empty.tryInternAll ["x", "if", "x", ""] = .ok ([⟨0⟩, ⟨1⟩, ⟨0⟩, ⟨2⟩], i) ∧
        i.Records ["x", "if", "x", ""] [⟨0⟩, ⟨1⟩, ⟨0⟩, ⟨2⟩] := by
  have hRoom : ["x", "if", "x", ""].eraseDups.length ≤ capacity := by decide
  obtain ⟨names, i, hAll, hRecords⟩ := records_of_history ["x", "if", "x", ""] hRoom
  have hNames : names = [⟨0⟩, ⟨1⟩, ⟨0⟩, ⟨2⟩] := hRecords.names_eq.trans (by decide)
  rw [hNames] at hAll hRecords
  exact ⟨hRoom, i, hAll, hRecords⟩

end ArrowLisp.Interner
