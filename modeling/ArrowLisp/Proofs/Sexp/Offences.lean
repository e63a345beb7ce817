import ArrowLisp.Sexp.Encoding
import Mathlib.Data.List.Forall2

/-!
Which JSON values are literal trees, and what is said of the others. A walk over a value goes from
left to right and enters arrays but not objects. A value is a tree unless the walk meets something
that stands for nothing; then the first such thing is reported, an object as a whole. Numbers never
are, since every number stands for a double.
-/

namespace ArrowLisp

namespace Json

/-- Induction on a value and the items of its arrays. What is inside an object does not count. -/
@[elab_as_elim]
theorem array_induction {motive : Json → Prop} (null : motive .null)
    (bool : ∀ b, motive (.bool b)) (int : ∀ i, motive (.int i)) (double : ∀ x, motive (.double x))
    (string : ∀ s, motive (.string s))
    (array : ∀ items, (∀ item ∈ items, motive item) → motive (.array items))
    (object : ∀ members, motive (.object members)) (j : Json) : motive j :=
  @Json.rec motive (fun items => ∀ item ∈ items, motive item) (fun _ => True) (fun _ => True) null
    bool int double string array (fun members _ => object members) (by simp)
    (fun _ _ hHead hTail => List.forall_mem_cons.2 ⟨hHead, hTail⟩) trivial (fun _ _ _ _ => trivial)
    (fun _ _ _ => trivial) j

/-- The values that are built like literal trees. -/
inductive IsEncoding : Json → Prop where
  | bool (b : Bool) : IsEncoding (.bool b)
  | int (i : Int) : IsEncoding (.int i)
  | double (x : Float) : IsEncoding (.double x)
  | string (s : String) : IsEncoding (.string s)
  | array {items : List Json} (hItems : ∀ item ∈ items, IsEncoding item) :
      IsEncoding (.array items)
  | object (s : String) : IsEncoding (.object [("string", .string s)])

/-- A tree mirrors a value: at each place of the tree is what stands at this place of the value. -/
inductive Encodes : Json → Sexp → Prop where
  | bool (b : Bool) : Encodes (.bool b) (.bool b)
  | int (i : Int) : Encodes (.int i) (.number (Number.ofInt i))
  | double (x : Float) : Encodes (.double x) (.number x)
  | string (s : String) : Encodes (.string s) (.symbol s)
  | array {items : List Json} {trees : List Sexp} (hItems : List.Forall₂ Encodes items trees) :
      Encodes (.array items) (.list trees)
  | object (s : String) : Encodes (.object [("string", .string s)]) (.string s)

mutual

/-- The values that a walk meets, an array before its items. Objects are not entered. -/
def walk : Json → List Json
  | .array items => .array items :: walkAll items
  | .null => [.null]
  | .bool b => [.bool b]
  | .int i => [.int i]
  | .double x => [.double x]
  | .string s => [.string s]
  | .object members => [.object members]

/-- The values that a walk over some values meets, from left to right. -/
def walkAll : List Json → List Json
  | [] => []
  | item :: items => item.walk ++ walkAll items

end

/-- What is said of a value that stands for nothing, whatever is around it. An array is not to blame
for its items. -/
def offence? : Json → Option String
  | .null => some "null"
  | .object [("string", .string _)] => none
  | .object members => some ("object " ++ (Json.object members).text)
  | .bool _ | .int _ | .double _ | .string _ | .array _ => none

variable {found : String}

theorem offence?_object {members : List (String × Json)}
    (h : ∀ s, members ≠ [("string", .string s)]) :
    offence? (.object members) = some ("object " ++ (Json.object members).text) := by
  unfold offence?
  split <;> simp_all

/-- Only `null` and objects offend. -/
theorem offence?_eq_some_iff {j : Json} :
    j.offence? = some found ↔ j = .null ∧ found = "null" ∨
      ∃ members, j = .object members ∧ (∀ s, members ≠ [("string", .string s)]) ∧
        found = "object " ++ j.text := by
  constructor
  · intro h
    unfold offence? at h
    split at h
    · cases h
      exact Or.inl ⟨rfl, rfl⟩
    · cases h
    · next members hOther =>
        cases h
        exact Or.inr ⟨members, rfl, fun s hMembers => hOther s hMembers, rfl⟩
    all_goals cases h
  · rintro (⟨rfl, rfl⟩ | ⟨members, rfl, hOther, rfl⟩)
    · rfl
    · exact offence?_object hOther

/-- Nothing that is said of an offender is what would be said of a number. -/
theorem offence?_ne_number (j : Json) (detail : String) :
    j.offence? ≠ some ("number " ++ detail) := by
  intro h
  rcases offence?_eq_some_iff.1 h with ⟨-, hFound⟩ | ⟨members, -, -, hFound⟩
  · have hChars := congrArg String.toList hFound
    simp at hChars
  · have hChars := congrArg String.toList hFound
    simp at hChars

/-- What is said of the first value that a walk meets and that stands for nothing. -/
def firstOffence? (j : Json) : Option String := j.walk.findSome? offence?

theorem findSome?_walkAll (items : List Json) :
    (walkAll items).findSome? offence? = items.findSome? firstOffence? := by
  induction items with
  | nil => rfl
  | cons item items ih =>
      rw [walkAll, List.findSome?_append, ih, List.findSome?_cons, firstOffence?]
      cases item.walk.findSome? offence? <;> rfl

/-- The first thing that offends in an array is the first one in the first of its items in which
something does. -/
theorem firstOffence?_array (items : List Json) :
    firstOffence? (.array items) = items.findSome? firstOffence? := by
  rw [← findSome?_walkAll, firstOffence?, walk]
  rfl

theorem firstOffence?_object {members : List (String × Json)}
    (h : ∀ s, members ≠ [("string", .string s)]) :
    firstOffence? (.object members) = some ("object " ++ (Json.object members).text) := by
  rw [firstOffence?, walk, List.findSome?_singleton, offence?_object h]

/-- A value is built like a literal tree exactly if a walk meets nothing that offends. -/
theorem isEncoding_iff (j : Json) : j.IsEncoding ↔ j.firstOffence? = none := by
  induction j using array_induction with
  | null => constructor <;> intro h <;> cases h
  | bool b => exact ⟨fun _ => rfl, fun _ => .bool b⟩
  | int i => exact ⟨fun _ => rfl, fun _ => .int i⟩
  | double x => exact ⟨fun _ => rfl, fun _ => .double x⟩
  | string s => exact ⟨fun _ => rfl, fun _ => .string s⟩
  | array items ih =>
      rw [firstOffence?_array, List.findSome?_eq_none_iff]
      constructor
      · intro h
        cases h with
        | array hItems => exact fun item hItem => (ih item hItem).1 (hItems item hItem)
      · exact fun h => .array fun item hItem => (ih item hItem).2 (h item hItem)
  | object members =>
      by_cases hString : ∃ s, members = [("string", .string s)]
      · obtain ⟨s, rfl⟩ := hString
        exact ⟨fun _ => rfl, fun _ => .object s⟩
      · have hOther : ∀ s, members ≠ [("string", .string s)] := fun s h => hString ⟨s, h⟩
        constructor
        · intro h
          cases h with
          | object s => exact absurd rfl (hOther s)
        · intro h
          rw [firstOffence?_object hOther] at h
          cases h

end Json

namespace Sexp

open Json (Encodes firstOffence?)

/-- What reading a value comes to: a tree that mirrors the value, of which nothing offends, or what
is said of the first value that does. -/
inductive Reads (j : Json) : Except ReadError Sexp → Prop where
  | ok {s : Sexp} (hNone : j.firstOffence? = none) (hMirrors : j.Encodes s) : Reads j (.ok s)
  | error {found : String} (hFirst : j.firstOffence? = some found) :
      Reads j (.error (.unsupported found))

/-- What reading the items of an array comes to. -/
inductive ReadsItems (items : List Json) (done : List Sexp) :
    Except ReadError (List Sexp) → Prop where
  | ok {trees : List Sexp} (hNone : items.findSome? firstOffence? = none)
      (hMirrors : List.Forall₂ Encodes items trees) :
      ReadsItems items done (.ok (done.reverse ++ trees))
  | error {found : String} (hFirst : items.findSome? firstOffence? = some found) :
      ReadsItems items done (.error (.unsupported found))

theorem readsItems_ofJsonItems {items : List Json} (h : ∀ item ∈ items, Reads item (ofJson item))
    (done : List Sexp) : ReadsItems items done (ofJsonItems done items) := by
  induction items generalizing done with
  | nil =>
      have hDone : ReadsItems [] done (.ok (done.reverse ++ [])) := .ok rfl .nil
      rwa [List.append_nil] at hDone
  | cons item items ih =>
      obtain ⟨hItem, hItems⟩ := List.forall_mem_cons.1 h
      rw [ofJsonItems]
      generalize ofJson item = result at hItem
      cases hItem with
      | error hFirst => exact .error (by rw [List.findSome?_cons, hFirst])
      | @ok tree hNone hMirrors =>
          have hRest := ih hItems (tree :: done)
          change ReadsItems (item :: items) done (ofJsonItems (tree :: done) items)
          generalize ofJsonItems (tree :: done) items = rest at hRest
          cases hRest with
          | error hFirst => exact .error (by rw [List.findSome?_cons, hNone]; exact hFirst)
          | @ok trees hNoneLater hMirrorsRest =>
              rw [List.reverse_cons, List.append_assoc]
              exact .ok (by rw [List.findSome?_cons, hNone]; exact hNoneLater)
                (.cons hMirrors hMirrorsRest)

theorem ofJson_object {members : List (String × Json)}
    (h : ∀ s, members ≠ [("string", .string s)]) :
    ofJson (.object members) = .error (.unsupported ("object " ++ (Json.object members).text)) := by
  rw [ofJson.eq_def]
  split <;> simp_all

theorem reads_ofJson (j : Json) : Reads j (ofJson j) := by
  induction j using Json.array_induction with
  | null => exact .error rfl
  | bool b => exact .ok rfl (.bool b)
  | int i => exact .ok rfl (.int i)
  | double x => exact .ok rfl (.double x)
  | string s => exact .ok rfl (.string s)
  | array items ih =>
      have hItems := readsItems_ofJsonItems ih []
      rw [ofJson]
      generalize ofJsonItems [] items = result at hItems
      cases hItems with
      | ok hNone hMirrors => exact .ok (by rw [Json.firstOffence?_array, hNone]) (.array hMirrors)
      | error hFirst => exact .error (by rw [Json.firstOffence?_array, hFirst])
  | object members =>
      by_cases hString : ∃ s, members = [("string", .string s)]
      · obtain ⟨s, rfl⟩ := hString
        exact .ok rfl (.object s)
      · have hOther : ∀ s, members ≠ [("string", .string s)] := fun s h => hString ⟨s, h⟩
        rw [ofJson_object hOther]
        exact .error (Json.firstOffence?_object hOther)

/-- A tree that mirrors a value is what the value is read as. -/
theorem ofJson_of_encodes {j : Json} {s : Sexp} (h : j.Encodes s) : ofJson j = .ok s := by
  induction j using Json.array_induction generalizing s with
  | array items ih =>
      cases h with
      | @array _ trees hItems =>
          have hRead : ∀ done, ofJsonItems done items = .ok (done.reverse ++ trees) := by
            induction hItems with
            | nil => simp [ofJsonItems]
            | @cons item tree items trees hHead _ ihTail =>
                obtain ⟨ihItem, ihItems⟩ := List.forall_mem_cons.1 ih
                intro done
                rw [ofJsonItems, ihItem hHead]
                simpa using ihTail ihItems (tree :: done)
          rw [ofJson, hRead]
          rfl
  | null => cases h
  | bool | int | double | string | object => cases h; rfl

section Verdict

variable {j : Json}

theorem firstOffence?_of_ok {s : Sexp} (h : ofJson j = .ok s) :
    j.firstOffence? = none ∧ j.Encodes s := by
  have hReads := reads_ofJson j
  rw [h] at hReads
  cases hReads with
  | ok hNone hMirrors => exact ⟨hNone, hMirrors⟩

theorem ofJson_eq_error_iff {e : ReadError} :
    ofJson j = .error e ↔ ∃ found, j.firstOffence? = some found ∧ e = .unsupported found := by
  have hReads := reads_ofJson j
  generalize ofJson j = result at hReads
  constructor
  · rintro rfl
    cases hReads with
    | error hFirst => exact ⟨_, hFirst, rfl⟩
  · rintro ⟨found, hFirst, rfl⟩
    cases hReads with
    | ok hNone _ => cases hNone.symm.trans hFirst
    | error hSame =>
        cases hSame.symm.trans hFirst
        rfl

/-- The first thing that offends, by its place on the walk. -/
theorem exists_first_iff (e : ReadError) :
    (∃ found, j.firstOffence? = some found ∧ e = .unsupported found) ↔
      ∃ before v after found, j.walk = before ++ v :: after ∧
        (∀ w ∈ before, w.offence? = none) ∧ v.offence? = some found ∧ e = .unsupported found := by
  constructor
  · rintro ⟨found, hFirst, rfl⟩
    obtain ⟨before, v, after, hWalk, hOffence, hBefore⟩ := List.findSome?_eq_some_iff.1 hFirst
    exact ⟨before, v, after, found, hWalk, hBefore, hOffence, rfl⟩
  · rintro ⟨before, v, after, found, hWalk, hBefore, hOffence, rfl⟩
    exact ⟨found, List.findSome?_eq_some_iff.2 ⟨before, v, after, hWalk, hOffence, hBefore⟩, rfl⟩

end Verdict

/-- Reading a value. A value is read exactly if it is built like a literal tree, and then as the
tree that mirrors it. Of any other value the first thing is reported that a walk meets and that
stands for nothing, `null` or an object as a whole. No number is ever reported. -/
theorem ofJson_mirrors_or_reports (j : Json) :
    ((∃ s, ofJson j = .ok s) ↔ j.IsEncoding) ∧
    (∀ s, ofJson j = .ok s ↔ j.Encodes s) ∧
    (∀ e, ofJson j = .error e ↔ ∃ before v after found, j.walk = before ++ v :: after ∧
      (∀ w ∈ before, w.offence? = none) ∧ v.offence? = some found ∧ e = .unsupported found) ∧
    ∀ detail, ofJson j ≠ .error (.unsupported ("number " ++ detail)) := by
  refine ⟨⟨fun ⟨s, h⟩ => ?_, fun h => ?_⟩, fun s => ⟨fun h => ?_, ofJson_of_encodes⟩,
    fun e => ofJson_eq_error_iff.trans (exists_first_iff e), fun detail h => ?_⟩
  · exact (Json.isEncoding_iff j).2 (firstOffence?_of_ok h).1
  · have hNone := (Json.isEncoding_iff j).1 h
    cases hResult : ofJson j with
    | ok s => exact ⟨s, rfl⟩
    | error e =>
        obtain ⟨found, hFirst, -⟩ := ofJson_eq_error_iff.1 hResult
        cases hNone.symm.trans hFirst
  · exact (firstOffence?_of_ok h).2
  · obtain ⟨found, hFirst, hFound⟩ := ofJson_eq_error_iff.1 h
    cases hFound
    obtain ⟨_, v, _, -, hOffence, -⟩ := List.findSome?_eq_some_iff.1 hFirst
    exact Json.offence?_ne_number v detail hOffence

/-- Of two things that offend the one further left is reported, though it stands deeper. -/
example :
    ofJson (.array [.array [.int 1, .object []], .null]) =
      .error (.unsupported "object \x7b\x7d") := by
  rfl

end Sexp

end ArrowLisp
