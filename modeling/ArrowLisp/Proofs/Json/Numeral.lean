import ArrowLisp.Json.Numeral
import ArrowLisp.Number.Text
import ArrowLisp.Proofs.Number.Scaling

/-!
Number literals as they are written. A literal taken apart and written down again is read as
itself, whatever digits it is made of. The number of a literal is an integer of 64 bits or a finite
double, and nothing of the literal is lost if its digits fit into 64 bits.
-/

namespace ArrowLisp.Json.Numeral

/-- A point and the digits after it, if there is a point. -/
def fractionChars : Option (List Char) → List Char
  | none => []
  | some digits => '.' :: digits

/-- An exponent after its letter, if there is one. -/
def exponentChars : Option Int → List Char
  | none => []
  | some e => 'E' :: Number.integerText e

/-- The text of a literal. -/
def chars (n : Numeral) : List Char :=
  (if n.negative then ['-'] else []) ++
    (n.whole ++ (fractionChars n.fraction ++ exponentChars n.exponent))

/-- At least one digit, and nothing else. -/
def Digits (cs : List Char) : Prop := cs ≠ [] ∧ ∀ c ∈ cs, c.isDigit = true

/-- What a text begins with is no digit. -/
def NoDigit (cs : List Char) : Prop := ∀ c ∈ cs.head?, c.isDigit = false

/-- The parts of a literal are digits, and the part before the point has no needless zero. -/
structure WellFormed (n : Numeral) : Prop where
  whole : Digits n.whole
  leading : n.whole.head? = some '0' → n.whole = ['0']
  fraction : ∀ digits ∈ n.fraction, Digits digits

variable {n : Numeral} {ds rest : List Char}

theorem digits?_append (hDigits : Digits ds) (hRest : NoDigit rest) :
    digits? (ds ++ rest) = some (ds, rest) := by
  have hTake : rest.takeWhile Char.isDigit = [] ∧ rest.dropWhile Char.isDigit = rest := by
    cases rest with
    | nil => simp
    | cons c rest => simp [hRest c (by simp)]
  have hSpan : (ds ++ rest).span Char.isDigit = (ds, rest) := by
    rw [List.span_eq_takeWhile_dropWhile, List.takeWhile_append_of_pos hDigits.2,
      List.dropWhile_append_of_pos hDigits.2, hTake.1, hTake.2, List.append_nil]
  obtain ⟨c, cs, rfl⟩ := List.exists_cons_of_ne_nil hDigits.1
  rw [digits?, hSpan]

theorem digits_toDigits (k : Nat) : Digits (Nat.toDigits 10 k) :=
  ⟨Nat.toDigits_ne_nil, fun _ => Nat.isDigit_of_mem_toDigits (by decide) (by decide)⟩

theorem whole?_append (hDigits : Digits ds) (hLeading : ds.head? = some '0' → ds = ['0'])
    (hRest : NoDigit rest) : whole? (ds ++ rest) = some (ds, rest) := by
  rw [whole?, digits?_append hDigits hRest]
  split
  · next c others _ h =>
      simp only [Option.some.injEq, Prod.mk.injEq] at h
      have := hLeading (by simp [h.1])
      simp_all
  · rfl

theorem digits?_toDigits (k : Nat) :
    digits? (Nat.toDigits 10 k) = some (Nat.toDigits 10 k, []) := by
  have hEnd : NoDigit [] := by simp [NoDigit]
  simpa using digits?_append (digits_toDigits k) hEnd

/-- Digits have no sign before them. -/
theorem ne_sign_of_digits {c : Char} (h : Digits (c :: ds)) : c ≠ '-' ∧ c ≠ '+' := by
  have hDigit := h.2 c (by simp)
  constructor <;> rintro rfl <;> simp at hDigit

theorem signedDigits?_of_digits (h : Digits ds) :
    signedDigits? ds = (digits? ds).map fun (digits, rest) => (digitsValue digits, rest) := by
  obtain ⟨c, cs, rfl⟩ := List.exists_cons_of_ne_nil h.1
  obtain ⟨hMinus, hPlus⟩ := ne_sign_of_digits h
  rw [signedDigits?]
  · exact fun _ hEq => hMinus (List.cons.inj hEq).1
  · exact fun _ hEq => hPlus (List.cons.inj hEq).1

theorem signedDigits?_integerText (e : Int) :
    signedDigits? (Number.integerText e) = some (e, []) := by
  have hValue : digitsValue (Nat.toDigits 10 e.natAbs) = e.natAbs := Nat.ofDigitChars_ten_toDigits
  rw [Number.integerText]
  split_ifs with hNegative
  · simp only [signedDigits?, digits?_toDigits, hValue, Option.map_some]
    congr
    omega
  · simp only [signedDigits?_of_digits (digits_toDigits _), digits?_toDigits, hValue,
      Option.map_some]
    congr
    omega

theorem exponent?_exponentChars (e : Option Int) :
    exponent? (exponentChars e) = some (e, []) := by
  cases e with
  | none => rfl
  | some e => simp [exponentChars, exponent?, signedDigits?_integerText]

theorem noDigit_exponentChars (e : Option Int) : NoDigit (exponentChars e) := by
  cases e <;> simp [NoDigit, exponentChars]

theorem noDigit_fractionChars_append (f : Option (List Char)) (e : Option Int) :
    NoDigit (fractionChars f ++ exponentChars e) := by
  cases f with
  | none => exact noDigit_exponentChars e
  | some => simp [NoDigit, fractionChars]

theorem fraction?_append {f : Option (List Char)} (h : ∀ digits ∈ f, Digits digits)
    (e : Option Int) :
    fraction? (fractionChars f ++ exponentChars e) = some (f, exponentChars e) := by
  cases f with
  | none => cases e <;> rfl
  | some digits =>
      simp [fractionChars, fraction?, digits?_append (h digits rfl) (noDigit_exponentChars e)]

theorem unsigned?_append (h : n.WellFormed) :
    unsigned? n.negative (n.whole ++ (fractionChars n.fraction ++ exponentChars n.exponent)) =
      some n := by
  have hWhole :=
    whole?_append h.whole h.leading (noDigit_fractionChars_append n.fraction n.exponent)
  simp [unsigned?, hWhole, fraction?_append h.fraction, exponent?_exponentChars]

/-- A literal is read from its text. -/
theorem ofChars?_chars (h : n.WellFormed) : ofChars? n.chars = some n := by
  have hRead := unsigned?_append h
  rw [chars]
  cases hSign : n.negative with
  | true => simpa [ofChars?, hSign] using hRead
  | false =>
      obtain ⟨c, cs, hWhole⟩ := List.exists_cons_of_ne_nil h.whole.1
      have hMinus : c ≠ '-' := (ne_sign_of_digits (hWhole ▸ h.whole)).1
      rw [hSign, hWhole] at hRead
      rw [hWhole, if_neg (by simp), List.nil_append, List.cons_append, ofChars?, ← hRead,
        List.cons_append]
      exact fun _ hEq => hMinus (List.cons.inj hEq).1

theorem eq_append_of_digits? {cs : List Char} (h : digits? cs = some (ds, rest)) :
    cs = ds ++ rest ∧ Digits ds := by
  have hSplit := (List.takeWhile_append_dropWhile (p := Char.isDigit) (l := cs)).symm
  have hDigits : ∀ c ∈ cs.takeWhile Char.isDigit, c.isDigit = true :=
    fun _ hMem => List.mem_takeWhile_imp hMem
  rw [digits?, List.span_eq_takeWhile_dropWhile] at h
  generalize cs.takeWhile Char.isDigit = digits at *
  cases digits with
  | nil => cases h
  | cons c digits =>
      cases h
      exact ⟨hSplit, by simp, hDigits⟩

theorem natAbs_le_of_toInt? {i : Int} (h : n.toInt? = some i) : i.natAbs ≤ 2 ^ 64 := by
  simp only [toInt?] at h
  split_ifs at h <;> cases h <;> omega

/-- Digits that are read make a number no smaller. -/
theorem le_ofDigitChars (ds : List Char) (k : Nat) : k ≤ Nat.ofDigitChars 10 ds k := by
  induction ds generalizing k with
  | nil => exact Nat.le_refl k
  | cons d ds ih =>
      rw [Nat.ofDigitChars_cons]
      exact le_trans (by omega) (ih _)

/-- Every digit multiplies what can be reached by ten. -/
theorem ofDigitChars_lt (h : ∀ c ∈ ds, c.isDigit = true) (k : Nat) :
    Nat.ofDigitChars 10 ds k < (k + 1) * 10 ^ ds.length := by
  induction ds generalizing k with
  | nil => simp
  | cons d ds ih =>
      obtain ⟨hDigit, hDigits⟩ := List.forall_mem_cons.1 h
      have hValue : d.toNat - '0'.toNat ≤ 9 :=
        Nat.sub_le_of_le_add (Char.isDigit_iff_toNat.1 hDigit).2
      rw [Nat.ofDigitChars_cons, List.length_cons, pow_succ', ← mul_assoc]
      exact (ih hDigits _).trans_le (Nat.mul_le_mul_right _ (by omega))

/-- The digits of a literal bound its coefficient. -/
theorem coefficient_lt (h : n.WellFormed) :
    n.magnitude.coefficient < 10 ^ (n.whole.length + (n.fraction.getD []).length) := by
  have hDigits : ∀ c ∈ n.whole ++ n.fraction.getD [], c.isDigit = true := by
    rw [List.forall_mem_append]
    refine ⟨h.whole.2, ?_⟩
    cases hPoint : n.fraction with
    | none => simp
    | some digits => exact (h.fraction digits hPoint).2
  simpa [magnitude, digitsValue] using ofDigitChars_lt hDigits 0

theorem accumulate_of_le {k : Nat} (h : Nat.ofDigitChars 10 ds k ≤ maxSignificand) :
    accumulate k ds = (Nat.ofDigitChars 10 ds k, []) := by
  induction ds generalizing k with
  | nil => rfl
  | cons d ds ih =>
      rw [Nat.ofDigitChars_cons] at h ⊢
      rw [accumulate, if_pos ((le_ofDigitChars ds _).trans h), ih h]

theorem accumulate_le {k : Nat} (h : k ≤ maxSignificand) (ds : List Char) :
    (accumulate k ds).1 ≤ maxSignificand := by
  induction ds generalizing k with
  | nil => exact h
  | cons d ds ih =>
      rw [accumulate]
      split_ifs with hNext
      · exact ih hNext
      · exact h

/-- If all digits fit into 64 bits, they are all kept. -/
theorem kept_eq_magnitude (h : n.magnitude.coefficient ≤ maxSignificand) :
    n.kept = n.magnitude := by
  rw [magnitude, digitsValue, Nat.ofDigitChars_append] at h
  have hWhole := accumulate_of_le ((le_ofDigitChars _ _).trans h)
  have hFraction := accumulate_of_le h
  simp only [kept, hWhole, hFraction, magnitude, digitsValue, Nat.ofDigitChars_append,
    List.length_nil]
  simp

theorem isFinite_of_toFloat? {x : Float} (h : n.toFloat? = some x) : x.isFinite = true := by
  obtain ⟨r, hScaled, rfl⟩ := Option.map_eq_some_iff.1 h
  have hCoefficient : n.kept.coefficient ≤ maxSignificand :=
    accumulate_le (accumulate_le (Nat.zero_le _) _) _
  exact Number.isFinite_ofRank
    (Number.lt_infinityRank_of_scaledRank? (hCoefficient.trans (by decide)) hScaled)

theorem toJson?_ne_string (s : String) : n.toJson? ≠ some (.string s) := by
  intro h
  rw [toJson?] at h
  split at h
  · cases h
  · obtain ⟨x, -, hEq⟩ := Option.map_eq_some_iff.1 h
    cases hEq

/-- With a point, a literal is no integer. -/
theorem toJson?_of_fraction (h : n.fraction.isSome = true) :
    n.toJson? = n.toFloat?.map .double := by
  have hInt : n.toInt? = none := if_pos (.inl h)
  rw [toJson?, hInt]

end ArrowLisp.Json.Numeral
