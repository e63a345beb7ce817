import ArrowLisp.Proofs.Json.Text
import ArrowLisp.Proofs.Number.Reread

/-!
Literal trees and their texts in JSON. A tree of finite numbers that is not nested too deep is read
from its text with everything in it as it is, but for its numbers, each of which is read as the
double that the text of the number is converted to. Every tree that is read from a text is such a
tree. Of the reader of JSON it is only assumed that it is a standard one.
-/

namespace ArrowLisp.Sexp

open Json (Blanks Spelling MemberSpelling Numeral)

/-- Induction on a tree and the items of its lists. -/
@[elab_as_elim]
theorem induction {motive : Sexp → Prop} (number : ∀ x, motive (.number x))
    (string : ∀ s, motive (.string s)) (bool : ∀ b, motive (.bool b))
    (symbol : ∀ text, motive (.symbol text))
    (list : ∀ items, (∀ item ∈ items, motive item) → motive (.list items)) (s : Sexp) : motive s :=
  @Sexp.rec motive (fun items => ∀ item ∈ items, motive item) number string bool symbol list
    (by simp) (fun _ _ hHead hTail => List.forall_mem_cons.2 ⟨hHead, hTail⟩) s

mutual

/-- The text of a tree in JSON, with a gap after every comma and colon. -/
def encode (gap : String) : Sexp → String
  | .number x => Literal.number x
  | .string s => "\x7b\"string\":" ++ gap ++ Json.quote s ++ "\x7d"
  | .bool b => Literal.bool b
  | .symbol s => Json.quote s
  | .list items => "[" ++ ("," ++ gap).intercalate (encodeAll gap items) ++ "]"

/-- The texts of trees, one by one. -/
def encodeAll (gap : String) : List Sexp → List String
  | [] => []
  | s :: rest => s.encode gap :: encodeAll gap rest

end

mutual

/-- The numbers in a tree, from left to right. -/
def numbers : Sexp → List Float
  | .number x => [x]
  | .string _ | .bool _ | .symbol _ => []
  | .list items => numbersAll items

/-- The numbers in trees, from left to right. -/
def numbersAll : List Sexp → List Float
  | [] => []
  | s :: rest => s.numbers ++ numbersAll rest

end

mutual

/-- How deep the text of a tree is nested in JSON. A string is one level, as it is an object. -/
def nesting : Sexp → Nat
  | .number _ | .bool _ | .symbol _ => 0
  | .string _ => 1
  | .list items => nestingAll items + 1

/-- How deep the most deeply nested of some trees is nested. -/
def nestingAll : List Sexp → Nat
  | [] => 0
  | s :: rest => max s.nesting (nestingAll rest)

end

/-- A tree of finite numbers that is not nested deeper than a text may be. -/
structure Encodable (s : Sexp) : Prop where
  finite : ∀ x ∈ s.numbers, x.isFinite = true
  nesting : s.nesting ≤ 127

mutual

/-- A tree with every number changed. -/
def mapNumbers (f : Float → Float) : Sexp → Sexp
  | .number x => .number (f x)
  | .string s => .string s
  | .bool b => .bool b
  | .symbol s => .symbol s
  | .list items => .list (mapNumbersAll f items)

/-- Trees with every number changed. -/
def mapNumbersAll (f : Float → Float) : List Sexp → List Sexp
  | [] => []
  | s :: rest => s.mapNumbers f :: mapNumbersAll f rest

end

mutual

/-- The JSON value that encodes a tree. -/
def toJson : Sexp → Json
  | .number x => .double x
  | .string s => .object [("string", .string s)]
  | .bool b => .bool b
  | .symbol s => .string s
  | .list items => .array (toJsonAll items)

/-- The values that encode trees, one by one. -/
def toJsonAll : List Sexp → List Json
  | [] => []
  | s :: rest => s.toJson :: toJsonAll rest

end

variable {gap : String} {s : Sexp} {items : List Sexp} {n : Nat} {read : Json.Reader}

theorem encodeAll_eq_map (gap : String) (items : List Sexp) :
    encodeAll gap items = items.map (encode gap) := by
  induction items with
  | nil => rfl
  | cons s items ih => rw [encodeAll, ih, List.map_cons]

theorem mapNumbersAll_eq_map (f : Float → Float) (items : List Sexp) :
    mapNumbersAll f items = items.map (mapNumbers f) := by
  induction items with
  | nil => rfl
  | cons s items ih => rw [mapNumbersAll, ih, List.map_cons]

theorem toJsonAll_eq_map (items : List Sexp) : toJsonAll items = items.map toJson := by
  induction items with
  | nil => rfl
  | cons s items ih => rw [toJsonAll, ih, List.map_cons]

theorem forall_mem_numbersAll_iff {P : Float → Prop} :
    (∀ x ∈ numbersAll items, P x) ↔ ∀ s ∈ items, ∀ x ∈ s.numbers, P x := by
  induction items with
  | nil => simp [numbersAll]
  | cons s items ih =>
      rw [numbersAll, List.forall_mem_append, ih, List.forall_mem_cons]

theorem nestingAll_le_iff : nestingAll items ≤ n ↔ ∀ s ∈ items, s.nesting ≤ n := by
  induction items with
  | nil => simp [nestingAll]
  | cons s items ih => rw [nestingAll, max_le_iff, ih, List.forall_mem_cons]

/-- A tree is as it was exactly if each of its numbers is. -/
theorem mapNumbers_eq_self_iff {f : Float → Float} :
    s.mapNumbers f = s ↔ ∀ x ∈ s.numbers, f x = x := by
  induction s using Sexp.induction with
  | number x => simp [mapNumbers, numbers]
  | string | bool | symbol => simp [mapNumbers, numbers]
  | list items ih =>
      have hItems : items.map (mapNumbers f) = items ↔ ∀ s ∈ items, s.mapNumbers f = s := by
        simpa using List.map_inj_left (f := mapNumbers f) (g := id) (l := items)
      rw [mapNumbers, mapNumbersAll_eq_map, Sexp.list.injEq, numbers, forall_mem_numbersAll_iff,
        hItems]
      exact forall₂_congr ih

section Writing

/-- The text of a number spells the number that it is converted to. -/
theorem spelling_number {x : Float} (h : x.isFinite = true) :
    Spelling n (Literal.number x).toList (.double (Number.reread x)) := by
  refine .number (Number.ofChars?_text h) ?_
  rw [Number.toJson?_numeral, ← Number.reread?_eq h, Number.reread?_eq_some h, Option.map_some]

theorem spelling_string (hGap : Blanks gap.toList) (s : String) :
    Spelling (n + 1) (encode gap (.string s)).toList (.object [("string", .string s)]) := by
  let m : MemberSpelling :=
    ⟨(Json.quote "string").toList, "string", gap.toList ++ (Json.quote s).toList, .string s⟩
  have hValue : Spelling n m.valueText m.value :=
    (Spelling.string (Json.quoted_quote s)).blanks_before hGap
  have hObject := Spelling.object (List.cons_ne_nil m [])
    (List.forall_mem_singleton.2 (Json.quoted_quote "string")) (List.forall_mem_singleton.2 hValue)
  have hName : Json.quote "string" = "\"string\"" := by decide
  simpa [encode, m, hName, MemberSpelling.text, MemberSpelling.member, Json.collect,
    Json.insertMember, List.intercalate] using hObject

/-- The text of a tree spells the tree, with every number as it is converted. -/
theorem spelling_encode (hGap : Blanks gap.toList) (hFinite : ∀ x ∈ s.numbers, x.isFinite = true)
    (hNesting : s.nesting ≤ n) :
    Spelling n (s.encode gap).toList (s.mapNumbers Number.reread).toJson := by
  induction s using Sexp.induction generalizing n with
  | number x => exact spelling_number (hFinite x (by simp [numbers]))
  | string s =>
      obtain ⟨m, rfl⟩ : ∃ m, n = m + 1 :=
        Nat.exists_eq_succ_of_ne_zero (by rw [nesting] at hNesting; omega)
      exact spelling_string hGap s
  | bool b => exact .bool b
  | symbol text => exact .string (Json.quoted_quote text)
  | list items ih =>
      rw [numbers, forall_mem_numbersAll_iff] at hFinite
      obtain ⟨m, rfl⟩ : ∃ m, n = m + 1 :=
        Nat.exists_eq_succ_of_ne_zero (by rw [nesting] at hNesting; omega)
      rw [nesting, Nat.add_le_add_iff_right, nestingAll_le_iff] at hNesting
      let spelled := items.map fun s => ((s.encode gap).toList, (s.mapNumbers Number.reread).toJson)
      have hSpelled : ∀ item ∈ spelled, Spelling m item.1 item.2 := by
        intro _ hMem
        obtain ⟨s, hItem, rfl⟩ := List.mem_map.1 hMem
        exact ih s hItem (hFinite s hItem) (hNesting s hItem)
      have hArray := Json.spelling_array hGap hSpelled
      simpa [spelled, encode, encodeAll_eq_map, mapNumbers, mapNumbersAll_eq_map, toJson,
        toJsonAll_eq_map, String.toList_intercalate, Function.comp_def] using hArray

end Writing

section Reading

theorem ofJsonItems_toJsonAll (h : ∀ item ∈ items, ofJson item.toJson = .ok item)
    (done : List Sexp) : ofJsonItems done (toJsonAll items) = .ok (done.reverse ++ items) := by
  induction items generalizing done with
  | nil => simp [toJsonAll, ofJsonItems]
  | cons item items ih =>
      obtain ⟨hItem, hItems⟩ := List.forall_mem_cons.1 h
      simp [toJsonAll, ofJsonItems, hItem, ih hItems]

/-- A tree is decoded from the value that encodes it. -/
theorem ofJson_toJson (s : Sexp) : ofJson s.toJson = .ok s := by
  induction s using Sexp.induction with
  | list items ih => simp [toJson, ofJson, ofJsonItems_toJsonAll ih, Except.map]
  | number | string | bool | symbol => simp [toJson, ofJson]

/-- What an array is decoded to, one item of it after another. -/
theorem exists_of_ofJsonItems {done ss : List Sexp} {js : List Json}
    (h : ofJsonItems done js = .ok ss) :
    ∃ rest, ss = done.reverse ++ rest ∧ List.Forall₂ (fun j s => ofJson j = .ok s) js rest := by
  induction js generalizing done with
  | nil =>
      cases h
      exact ⟨[], by simp, .nil⟩
  | cons j js ih =>
      rw [ofJsonItems] at h
      split at h
      · next s hItem =>
          obtain ⟨rest, rfl, hRest⟩ := ih h
          exact ⟨s :: rest, by simp, .cons hItem hRest⟩
      · cases h

/-- The only objects with a meaning are those of strings. -/
theorem eq_of_ofJson_object {members : List (String × Json)}
    (h : ofJson (.object members) = .ok s) :
    ∃ text, members = [("string", .string text)] ∧ s = .string text := by
  rw [ofJson.eq_def] at h
  split at h
  case h_7 text hMembers =>
    cases hMembers
    cases h
    exact ⟨text, rfl, rfl⟩
  case h_8 => cases h
  all_goals contradiction

theorem exists_left_of_forall₂ {α β : Type} {R : α → β → Prop} {as : List α} {bs : List β}
    (h : List.Forall₂ R as bs) : ∀ b ∈ bs, ∃ a ∈ as, R a b := by
  induction h with
  | nil => simp
  | cons hFirst _ ih => grind

/-- A number that is read is finite. -/
theorem exists_number_of_ofJson {literal : Numeral} {j : Json} (hValue : literal.toJson? = some j)
    (h : ofJson j = .ok s) : ∃ x : Float, s = .number x ∧ x.isFinite = true := by
  rw [Numeral.toJson?] at hValue
  split at hValue
  · next i hInt =>
      cases hValue
      cases h
      exact ⟨_, rfl, Number.isFinite_ofInt (Numeral.natAbs_le_of_toInt? hInt)⟩
  · obtain ⟨x, hFloat, rfl⟩ := Option.map_eq_some_iff.1 hValue
    cases h
    exact ⟨x, rfl, Numeral.isFinite_of_toFloat? hFloat⟩

theorem bounds_of_ofJson {cs : List Char} {j : Json} (hSpelling : Spelling n cs j)
    (h : ofJson j = .ok s) : (∀ x ∈ s.numbers, x.isFinite = true) ∧ s.nesting ≤ n := by
  induction hSpelling generalizing s with
  | null => cases h
  | bool | string =>
      cases h
      simp [numbers, nesting]
  | number _ hValue =>
      obtain ⟨x, rfl, hFinite⟩ := exists_number_of_ofJson hValue h
      simpa [numbers, nesting] using hFinite
  | emptyArray =>
      cases h
      simp [numbers, numbersAll, nesting, nestingAll]
  | @array n spelled _ _ ih =>
      cases hItems : ofJsonItems [] (spelled.map Prod.snd) with
      | error e => simp [ofJson, hItems, Except.map] at h
      | ok ss =>
          obtain ⟨items, hSplit, hForall⟩ := exists_of_ofJsonItems hItems
          obtain rfl : ss = items := by simpa using hSplit
          simp only [ofJson, hItems, Except.map] at h
          cases h
          have hBounds : ∀ s ∈ ss, (∀ x ∈ s.numbers, x.isFinite = true) ∧ s.nesting ≤ n := by
            intro s hMem
            obtain ⟨j, hj, hDecoded⟩ := exists_left_of_forall₂ hForall s hMem
            obtain ⟨item, hItem, rfl⟩ := List.mem_map.1 hj
            exact ih item hItem hDecoded
          rw [numbers, nesting, forall_mem_numbersAll_iff, Nat.add_le_add_iff_right,
            nestingAll_le_iff]
          exact ⟨fun s hMem => (hBounds s hMem).1, fun s hMem => (hBounds s hMem).2⟩
  | emptyObject | object =>
      obtain ⟨text, -, rfl⟩ := eq_of_ofJson_object h
      simp [numbers, nesting]
  | before _ _ ih | after _ _ ih => exact ih h

theorem readWith_of_reads {text : String} {j : Json} (h : read text = .ok j) :
    readWith read text = ofJson j := by
  rw [readWith, h]

theorem readWith_encode (hRead : read.Standard) (hGap : Blanks gap.toList) (h : s.Encodable) :
    readWith read (s.encode gap) = .ok (s.mapNumbers Number.reread) := by
  have hSpelling := spelling_encode hGap h.finite h.nesting
  rw [readWith_of_reads (hRead.reads hSpelling), ofJson_toJson]

theorem encodable_of_readWith (hRead : read.Standard) {text : String}
    (h : readWith read text = .ok s) : s.Encodable := by
  cases hText : read text with
  | error message => simp [readWith, hText] at h
  | ok j =>
      rw [readWith_of_reads hText] at h
      obtain ⟨hFinite, hNesting⟩ := bounds_of_ofJson (hRead.strict hText) h
      exact ⟨hFinite, hNesting⟩

/-- Trees whose numbers are converted to themselves are read from their texts as they are. -/
theorem ofText_encode_of_reread (hGap : Blanks gap.toList) (h : s.Encodable)
    (hSame : ∀ x ∈ s.numbers, Number.reread x = x) : ofText (s.encode gap) = .ok s := by
  rw [ofText, readWith_encode Json.standard_reader hGap h, mapNumbers_eq_self_iff.2 hSame]

end Reading

/-- How trees come back from their texts, which have a gap after every comma and colon. -/
structure ComesBack (read : Json.Reader) (gap : String) : Prop where
  /-- A number alone is read from its text as some number. -/
  number : ∀ x : Float, x.isFinite = true →
    readWith read (Literal.number x) = .ok (.number (Number.reread x))
  /-- A tree is read from its text as it is, but with every number as its own text is read. -/
  tree : ∀ s : Sexp, s.Encodable →
    readWith read (s.encode gap) = .ok (s.mapNumbers Number.reread)
  /-- So the tree itself comes back exactly if each of its numbers does. -/
  same_iff : ∀ s : Sexp, s.Encodable →
    (readWith read (s.encode gap) = .ok s ↔ ∀ x ∈ s.numbers, Number.reread x = x)
  /-- A number comes back bit for bit if its digits make an integer of 53 bits and the power of ten
  after them is a double. -/
  exact : ∀ (x : Float) (literal : Numeral), x.isFinite = true →
    Numeral.ofChars? (Literal.number x).toList = some literal →
    literal.magnitude.coefficient ≤ 2 ^ 53 → literal.magnitude.exponent.natAbs ≤ 22 →
    Number.reread x = x
  /-- Any other one comes back as a finite number with the same sign that is close to it. -/
  finite : ∀ x : Float, x.isFinite = true → (Number.reread x).isFinite = true
  sign : ∀ x : Float, x.isFinite = true →
    Number.isNegative (Number.reread x) = Number.isNegative x
  near : ∀ x : Float, x.isFinite = true →
    |Number.magnitude (Number.rank (Number.reread x)) - Number.magnitude (Number.rank x)| ≤
      Number.magnitude (Number.rank x) / 2 ^ 50 + Number.magnitude 2
  /-- Whatever text a tree is read from, it could be written. -/
  encodable : ∀ (text : String) (s : Sexp), readWith read text = .ok s → s.Encodable

/-- Reading undoes writing up to the conversion of numbers, with any standard reader. -/
theorem comesBack_of_standard (hRead : read.Standard) (hGap : Blanks gap.toList) :
    ComesBack read gap where
  number x h := by
    have hEncodable : Encodable (.number x) := ⟨by simpa [numbers] using h, by simp [nesting]⟩
    exact readWith_encode hRead hGap hEncodable
  tree _ h := readWith_encode hRead hGap h
  same_iff s h := by
    rw [readWith_encode hRead hGap h, Except.ok.injEq, mapNumbers_eq_self_iff]
  exact _ _ hFinite hText hCoefficient hExponent :=
    Number.reread_eq_self hFinite hText hCoefficient hExponent
  finite _ := Number.isFinite_reread
  sign _ := Number.isNegative_reread
  near _ := Number.abs_magnitude_reread_sub_le
  encodable _ _ := encodable_of_readWith hRead

/-- A tree with a negative zero, ten million and characters that are escaped. -/
def sample : Sexp :=
  .list [.number (Number.ofRank true 0), .number (Number.ofRank false 0x416312d000000000),
    .string "\"\n", .symbol "\\", .bool true, .list []]

/-- It comes back as it is. -/
theorem comesBack_sample :
    Json.reader.Standard ∧ Blanks " ".toList ∧ sample.Encodable ∧
      readWith Json.reader (sample.encode " ") = .ok sample := by
  have hGap : Blanks " ".toList := by simp [Blanks, Json.Token.isBlank]
  have hZero : (Number.ofRank true 0).isFinite = true := Number.isFinite_ofRank (by decide)
  have hLarge : (Number.ofRank false 0x416312d000000000).isFinite = true :=
    Number.isFinite_ofRank (by decide)
  have hEncodable : sample.Encodable :=
    ⟨by simp [sample, numbers, numbersAll, hZero, hLarge], by decide⟩
  have hBack := comesBack_of_standard Json.standard_reader hGap
  refine ⟨Json.standard_reader, hGap, hEncodable, (hBack.same_iff sample hEncodable).2 ?_⟩
  have hZeroBack := hBack.exact _ _ hZero (Number.ofChars?_text hZero) (by decide +kernel)
    (by decide +kernel)
  have hLargeBack := hBack.exact _ _ hLarge (Number.ofChars?_text hLarge) (by decide +kernel)
    (by decide +kernel)
  simp [sample, numbers, numbersAll, hZeroBack, hLargeBack]

/-- A number with 17 digits, which make more than 53 bits. -/
def lossy : Float := Number.ofRank false 0x40499fc44f1b2f60

/-- It comes back as the next double. -/
theorem ofText_encode_lossy :
    Encodable (.number lossy) ∧ encode "" (.number lossy) = "51.248178375505404" ∧
      ofText (encode "" (.number lossy)) = .ok (.number (Number.ofRank false 0x40499fc44f1b2f61)) ∧
      ofText (encode "" (.number lossy)) ≠ .ok (.number lossy) := by
  have hFinite : lossy.isFinite = true := Number.isFinite_ofRank (by decide)
  have hEncodable : Encodable (.number lossy) := ⟨by simp [numbers, hFinite], by decide⟩
  have hGap : Blanks "".toList := by simp [Blanks]
  have hText : encode "" (.number lossy) = "51.248178375505404" := by decide +kernel
  have hScaled : (Number.numeral lossy).kept.scaledRank? = some 0x40499fc44f1b2f61 := by
    decide +kernel
  have hReread : Number.reread lossy = Number.ofRank false 0x40499fc44f1b2f61 := by
    rw [Number.reread, Number.reread?_eq hFinite, Numeral.toFloat?, hScaled, Option.map_some,
      Option.getD_some, Number.negative_numeral, lossy, Number.isNegative_ofRank (by decide)]
  have hNe : Number.ofRank false 0x40499fc44f1b2f61 ≠ lossy := by
    intro hEq
    have hRank := congrArg Number.rank hEq
    rw [lossy, Number.rank_ofRank (by decide), Number.rank_ofRank (by decide)] at hRank
    omega
  rw [ofText, readWith_encode Json.standard_reader hGap hEncodable, mapNumbers, hReread]
  exact ⟨hEncodable, hText, rfl, by simpa using hNe⟩

end ArrowLisp.Sexp
