import ArrowLisp.Json.Grammar
import ArrowLisp.Literal

/-!
The syntax of JSON, independent of any reader: which texts are spellings of which values. It is the
strict syntax of the standard, with three things that the standard leaves open. A value may be
nested only so many levels deep, of the members of an object with the same name the last one counts,
and a number is what its literal is converted to, so a literal that is out of range spells nothing.
-/

namespace ArrowLisp.Json

open Token (isBlank hexValue? simpleEscape? isHigh isLow ofPair)

/-- Characters that may stand between tokens, and no others. -/
def Blanks (cs : List Char) : Prop := ∀ c ∈ cs, isBlank c = true

/-- Some hexadecimal digits and the number that they make. -/
inductive HexDigits : Nat → List Char → Nat → Prop where
  | nil : HexDigits 0 [] 0
  | snoc {count value digit : Nat} {cs : List Char} {c : Char} (h : HexDigits count cs value)
      (hDigit : hexValue? c = some digit) :
      HexDigits (count + 1) (cs ++ [c]) (16 * value + digit)

/-- What is written between the quotes of a string, and the characters of the string. -/
inductive Content : List Char → List Char → Prop where
  | nil : Content [] []
  | plain {c : Char} {cs s : List Char} (hQuote : c ≠ '"') (hBackslash : c ≠ '\\')
      (hControl : ¬c.toNat < 0x20) (h : Content cs s) : Content (c :: cs) (c :: s)
  | escape {letter c : Char} {cs s : List Char} (hLetter : simpleEscape? letter = some c)
      (h : Content cs s) : Content ('\\' :: letter :: cs) (c :: s)
  | unicode {ds cs s : List Char} {unit : Nat} (hDigits : HexDigits 4 ds unit)
      (hHigh : isHigh unit = false) (hLow : isLow unit = false) (h : Content cs s) :
      Content ('\\' :: 'u' :: (ds ++ cs)) (Char.ofNat unit :: s)
  /-- Two halves of a surrogate pair make one character. -/
  | pair {ds es cs s : List Char} {first second : Nat} (hFirst : HexDigits 4 ds first)
      (hHigh : isHigh first = true) (hSecond : HexDigits 4 es second) (hLow : isLow second = true)
      (h : Content cs s) :
      Content ('\\' :: 'u' :: (ds ++ '\\' :: 'u' :: (es ++ cs))) (ofPair first second :: s)

/-- A string in its quotes, with blanks around it. -/
inductive Quoted : List Char → String → Prop where
  | quotes {cs s : List Char} (h : Content cs s) :
      Quoted ('"' :: (cs ++ ['"'])) (String.ofList s)
  | before {cs : List Char} {s : String} {c : Char} (hBlank : isBlank c = true) (h : Quoted cs s) :
      Quoted (c :: cs) s
  | after {cs : List Char} {s : String} {c : Char} (hBlank : isBlank c = true) (h : Quoted cs s) :
      Quoted (cs ++ [c]) s

/-- A member of an object, with the texts of its name and of its value. -/
structure MemberSpelling where
  nameText : List Char
  name : String
  valueText : List Char
  value : Json

namespace MemberSpelling

/-- The text of the whole member. -/
def text (m : MemberSpelling) : List Char := m.nameText ++ ':' :: m.valueText

/-- The member itself. -/
def member (m : MemberSpelling) : String × Json := (m.name, m.value)

end MemberSpelling

/-- Members that are read one after another. Of those with one name, the last one stays. -/
def collect (held members : List (String × Json)) : List (String × Json) :=
  members.foldl (fun held member => insertMember member.1 member.2 held) held

/-- A text that spells a value with at most so many levels of nesting, and blanks around it. -/
inductive Spelling : Nat → List Char → Json → Prop where
  | null {n : Nat} : Spelling n "null".toList .null
  | bool {n : Nat} (b : Bool) : Spelling n (Literal.bool b).toList (.bool b)
  | number {n : Nat} {cs : List Char} {literal : Numeral} {j : Json}
      (hLiteral : Numeral.ofChars? cs = some literal) (hValue : literal.toJson? = some j) :
      Spelling n cs j
  | string {n : Nat} {cs : List Char} {s : String} (h : Quoted cs s) : Spelling n cs (.string s)
  | emptyArray {n : Nat} {gap : List Char} (hGap : Blanks gap) :
      Spelling (n + 1) ('[' :: (gap ++ [']'])) (.array [])
  | array {n : Nat} {items : List (List Char × Json)} (hSome : items ≠ [])
      (h : ∀ item ∈ items, Spelling n item.1 item.2) :
      Spelling (n + 1) ('[' :: ([','].intercalate (items.map Prod.fst) ++ [']']))
        (.array (items.map Prod.snd))
  | emptyObject {n : Nat} {gap : List Char} (hGap : Blanks gap) :
      Spelling (n + 1) ('\x7b' :: (gap ++ ['\x7d'])) (.object [])
  | object {n : Nat} {members : List MemberSpelling} (hSome : members ≠ [])
      (hNames : ∀ m ∈ members, Quoted m.nameText m.name)
      (hValues : ∀ m ∈ members, Spelling n m.valueText m.value) :
      Spelling (n + 1)
        ('\x7b' :: ([','].intercalate (members.map MemberSpelling.text) ++ ['\x7d']))
        (.object (collect [] (members.map MemberSpelling.member)))
  | before {n : Nat} {cs : List Char} {j : Json} {c : Char} (hBlank : isBlank c = true)
      (h : Spelling n cs j) : Spelling n (c :: cs) j
  | after {n : Nat} {cs : List Char} {j : Json} {c : Char} (hBlank : isBlank c = true)
      (h : Spelling n cs j) : Spelling n (cs ++ [c]) j

variable {cs ds gap s t : List Char}

theorem Content.append (h : Content cs s) (hNext : Content ds t) : Content (cs ++ ds) (s ++ t) := by
  induction h with
  | nil => exact hNext
  | plain hQuote hBackslash hControl _ ih => exact .plain hQuote hBackslash hControl ih
  | escape hLetter _ ih => exact .escape hLetter ih
  | unicode hDigits hHigh hLow _ ih =>
      simpa [List.append_assoc] using Content.unicode hDigits hHigh hLow ih
  | pair hFirst hHigh hSecond hLow _ ih =>
      simpa [List.append_assoc] using Content.pair hFirst hHigh hSecond hLow ih

namespace Blanks

/-- What a blank may stand before, some blanks may stand before. -/
theorem before {P : List Char → Prop} (hGap : Blanks gap)
    (hStep : ∀ {c cs}, isBlank c = true → P cs → P (c :: cs)) (h : P cs) : P (gap ++ cs) := by
  induction gap with
  | nil => exact h
  | cons c gap ih =>
      obtain ⟨hBlank, hRest⟩ := List.forall_mem_cons.1 hGap
      exact hStep hBlank (ih hRest)

end Blanks

variable {n : Nat} {j : Json} {name : String}

theorem Quoted.blanks_before (hGap : Blanks gap) (h : Quoted cs name) : Quoted (gap ++ cs) name :=
  hGap.before (P := fun cs => Quoted cs name) .before h

theorem Spelling.blanks_before (hGap : Blanks gap) (h : Spelling n cs j) :
    Spelling n (gap ++ cs) j :=
  hGap.before (P := fun cs => Spelling n cs j) .before h

end ArrowLisp.Json
