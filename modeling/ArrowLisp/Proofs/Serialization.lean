import ArrowLisp.Proofs.Equality
import ArrowLisp.Proofs.Number.Text

/-!
The text of a value shows everything but which operation or closure it is. Strings stand between
quotes without any escapes, yet no text of another kind begins with a quote, and what stands between
the outer quotes is the string. Numbers are read back from their texts, not-a-number and the
infinities too. Hence equal texts and equality as programs see it differ on the two zeros only.
-/

namespace ArrowLisp

namespace Number

/-- The number of a text: that of a literal, or one of the three that have no literal. -/
def ofText? (t : String) : Option Float :=
  match Json.Numeral.ofChars? t.toList with
  | some literal => literal.magnitude.toFloat? literal.negative
  | none =>
    if t = "NaN" then some .nan
    else if t = "Infinity" then some (ofRank false infinityRank)
    else if t = "-Infinity" then some (ofRank true infinityRank)
    else none

variable {x : Float}

theorem text_of_rank_eq (h : rank x = infinityRank) :
    text x = if isNegative x then "-Infinity" else "Infinity" := by
  rw [text, h, if_neg (lt_irrefl _), if_pos rfl]
  rfl

/-- Every number is read from its text. -/
theorem ofText?_text (x : Float) : ofText? (text x) = some x := by
  obtain hFinite | hInfinite | hNaN := lt_trichotomy (rank x) infinityRank
  · have hFinite := isFinite_iff.2 hFinite
    rw [ofText?, text_eq hFinite, String.toList_ofList,
      Json.Numeral.ofChars?_chars (wellFormed_numeral hFinite)]
    simp only [negative_numeral, Decimal.toFloat?_eq_some hFinite (nearest_numeral hFinite)]
  · have hSame := ofRank_rank hInfinite.le
    rw [hInfinite] at hSame
    rw [text_of_rank_eq hInfinite, ← hSame]
    cases isNegative x <;> decide
  · have hNan : x = .nan := by simpa using isNaN_iff.2 hNaN
    rw [text, if_pos hNaN, hNan]
    decide

/-- What is no literal and begins like none of the three words is no text of a number. -/
theorem ofText?_eq_none {t : String} (hLiteral : Json.Numeral.ofChars? t.toList = none)
    (hFirst : ∀ word ∈ ["NaN", "Infinity", "-Infinity"], t.toList.head? ≠ word.toList.head?) :
    ofText? t = none := by
  have hWord : ∀ word ∈ ["NaN", "Infinity", "-Infinity"], t ≠ word := by
    rintro word hMem rfl
    exact hFirst t hMem rfl
  rw [ofText?, hLiteral]
  simp only [if_neg (hWord "NaN" (by decide)), if_neg (hWord "Infinity" (by decide)),
    if_neg (hWord "-Infinity" (by decide))]

end Number

/-- What the text of a value shows of it. -/
inductive Shown where
  | number (x : Float)
  | bool (b : Bool)
  | string (s : String)
  | primitive
  | closure
deriving DecidableEq

/-- What a text shows. Between quotes stands a string, whatever it is made of. -/
def Shown.ofText? (t : String) : Option Shown :=
  match t.toList with
  | '"' :: cs => some (.string (String.ofList cs.dropLast))
  | _ =>
    if t = "true" then some (.bool true)
    else if t = "false" then some (.bool false)
    else if t = "#<primop>" then some .primitive
    else if t = "#<procedure>" then some .closure
    else (Number.ofText? t).map .number

namespace Shown

theorem ofText?_quoted (s : String) : ofText? (Literal.string s) = some (.string s) := by
  simp [ofText?, Literal.string]

example : ofText? "\"\"1.0\"" = some (.string "\"1.0") := by decide +kernel

/-- No number begins with a quote, and none is one of the four words. -/
theorem ofText?_of_number {t : String} {x : Float} (h : Number.ofText? t = some x) :
    ofText? t = some (.number x) := by
  have hWord {word : String} (hNone : Number.ofText? word = none) : t ≠ word := by
    rintro rfl
    rw [h] at hNone
    cases hNone
  rw [ofText?]
  split
  · next cs hQuote =>
      have hNone : Number.ofText? t = none :=
        Number.ofText?_eq_none (by rw [hQuote]; rfl) (by rw [hQuote, List.head?_cons]; decide)
      rw [h] at hNone
      cases hNone
  · rw [if_neg (hWord (by decide)), if_neg (hWord (by decide)), if_neg (hWord (by decide)),
      if_neg (hWord (by decide)), h, Option.map_some]

end Shown

namespace Value

/-- What a value shows of itself. -/
def shown : Value → Shown
  | .number x => .number x
  | .bool b => .bool b
  | .string s => .string s
  | .primitive _ => .primitive
  | .closure _ => .closure

/-- What a value shows of itself is told by its text. -/
theorem ofText?_serialize (v : Value) : Shown.ofText? v.serialize = some v.shown := by
  cases v with
  | number x => exact Shown.ofText?_of_number (Number.ofText?_text x)
  | bool b => cases b <;> decide +kernel
  | string s => exact Shown.ofText?_quoted s
  | primitive op =>
      change Shown.ofText? "#<primop>" = some .primitive
      decide +kernel
  | closure c =>
      change Shown.ofText? "#<procedure>" = some .closure
      decide +kernel

/-- Two values that their texts cannot tell apart: numbers with the same bits, or both not a number,
the same truth value, the same string, any two operations, and any two closures. -/
inductive Indistinct : Value → Value → Prop where
  | number {x y : Float} (h : x.toBits = y.toBits ∨ x.isNaN = true ∧ y.isNaN = true) :
      Indistinct (.number x) (.number y)
  | bool (b : Bool) : Indistinct (.bool b) (.bool b)
  | string (s : String) : Indistinct (.string s) (.string s)
  | primitive (p q : Primitive) : Indistinct (.primitive p) (.primitive q)
  | closure (c d : Closure Value) : Indistinct (.closure c) (.closure d)

/-- The two zeros. -/
inductive OppositeZeros : Value → Value → Prop where
  | positive : OppositeZeros (.number 0) (.number (-0))
  | negative : OppositeZeros (.number (-0)) (.number 0)

/-- A value that is neither called nor not a number. -/
structure IsDatum (v : Value) : Prop where
  notCallable : v.isCallable = false
  notNaN : ∀ x, v = .number x → x.isNaN = false

variable {v w : Value}

theorem indistinct_of_shown_eq (h : v.shown = w.shown) : v.Indistinct w := by
  cases v <;> cases w <;> cases h <;> constructor
  exact .inl rfl

theorem Indistinct.kind_eq (h : v.Indistinct w) : v.kind = w.kind := by
  cases h <;> rfl

theorem Indistinct.serialize_eq (h : v.Indistinct w) : v.serialize = w.serialize := by
  cases h with
  | number h =>
      obtain hBits | ⟨hLeft, hRight⟩ := h
      · rw [Float.toBits_inj.1 hBits]
      · simp only [Float.isNaN_eq_decide_eq_nan, decide_eq_true_iff] at hLeft hRight
        rw [hLeft, hRight]
  | _ => rfl

/-- Texts are the same only where they cannot tell values apart. -/
theorem serialize_eq_iff : v.serialize = w.serialize ↔ v.Indistinct w := by
  refine ⟨fun h => indistinct_of_shown_eq ?_, Indistinct.serialize_eq⟩
  have hShown := congrArg Shown.ofText? h
  rw [ofText?_serialize, ofText?_serialize] at hShown
  exact Option.some.inj hShown

theorem OppositeZeros.equal_eq_true (h : v.OppositeZeros w) : v.equal w = true := by
  cases h <;> decide

theorem OppositeZeros.serialize_ne (h : v.OppositeZeros w) : v.serialize ≠ w.serialize := by
  rw [ne_eq, serialize_eq_iff]
  cases h <;> rintro ⟨h⟩ <;> revert h <;> decide

/-- Equal numbers have the same bits but for the two zeros. -/
theorem Equals.indistinct (h : v.Equals w) : v.Indistinct w ∨ v.OppositeZeros w := by
  cases h with
  | number h =>
      obtain ⟨-, -, rfl | ⟨rfl, rfl⟩ | ⟨rfl, rfl⟩⟩ := Float.beq_iff_ne_nan_and_eq.1 h
      · exact .inl (.number (.inl rfl))
      · exact .inr .positive
      · exact .inr .negative
  | bool b => exact .inl (.bool b)
  | string s => exact .inl (.string s)
  | primitive op => exact .inl (.primitive op op)
  | @closure c d _ => exact .inl (.closure c d)

/-- Values that are shown alike are equal, unless they can be called or are not a number. -/
theorem Indistinct.equal_eq_true (h : v.Indistinct w) (hDatum : v.IsDatum) : v.equal w = true := by
  rw [equal_iff]
  cases h with
  | @number x y h =>
      obtain hBits | ⟨hNaN, -⟩ := h
      · obtain rfl := Float.toBits_inj.1 hBits
        exact equal_iff.1 (equal_self_iff.2 hDatum.notNaN)
      · exact absurd hNaN (Bool.eq_false_iff.1 (hDatum.notNaN x rfl))
  | bool b => exact .bool b
  | string s => exact .string s
  | primitive p q => cases hDatum.notCallable
  | closure c d => cases hDatum.notCallable

/-- A printed result determines the value: its kind, the bits of a number, and the content of a
truth value or a string. Apart from what can be called and from not-a-number, `equal?` answers true
exactly if the texts are the same, with one exception: the two zeros are equal and shown apart. -/
theorem serialize_determines (v w : Value) :
    (v.serialize = w.serialize ↔ v.Indistinct w) ∧
    (v.serialize = w.serialize → v.kind = w.kind) ∧
    (v.IsDatum → (Primitive.equal.apply [v, w] = .ok (.bool true) ↔
      v.serialize = w.serialize ∨ v.OppositeZeros w)) ∧
    (v.OppositeZeros w →
      Primitive.equal.apply [v, w] = .ok (.bool true) ∧ v.serialize ≠ w.serialize) := by
  have hApply : Primitive.equal.apply [v, w] = .ok (.bool true) ↔ v.equal w = true := by
    simp [Primitive.apply]
  rw [hApply]
  refine ⟨serialize_eq_iff, fun h => (serialize_eq_iff.1 h).kind_eq, fun hDatum => ⟨?_, ?_⟩,
    fun h => ⟨h.equal_eq_true, h.serialize_ne⟩⟩
  · intro h
    rw [serialize_eq_iff]
    exact (equal_iff.1 h).indistinct
  · rintro (h | h)
    · exact (serialize_eq_iff.1 h).equal_eq_true hDatum
    · exact h.equal_eq_true

end Value

end ArrowLisp
