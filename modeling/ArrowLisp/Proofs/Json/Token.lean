import ArrowLisp.Json.Text
import ArrowLisp.Proofs.Json.Numeral
import ArrowLisp.Proofs.Json.Syntax

/-!
The tokens of a text. What is written for a token is read as that token at any place where the token
ends, so texts are read piece by piece. In the other direction, what has been read of a text is the
texts of the tokens that are complete, with blanks between them, and a part of the next one.
-/

namespace ArrowLisp.Json.Token

variable {cs ds es gap rest pending content : List Char} {ts us tokens more : List Token}
  {t : Token} {c : Char} {j : Json} {n : Numeral} {state next : Partial}

/-- What is written for a token. -/
inductive Written : List Char → Token → Prop where
  | openBracket : Written ['['] .openBracket
  | closeBracket : Written [']'] .closeBracket
  | openBrace : Written ['\x7b'] .openBrace
  | closeBrace : Written ['\x7d'] .closeBrace
  | comma : Written [','] .comma
  | colon : Written [':'] .colon
  | null : Written "null".toList (.scalar .null)
  | bool (b : Bool) : Written (Literal.bool b).toList (.scalar (.bool b))
  | number {cs : List Char} {literal : Numeral} {j : Json}
      (hLiteral : Numeral.ofChars? cs = some literal) (hValue : literal.toJson? = some j) :
      Written cs (.scalar j)
  | string {cs s : List Char} (h : Content cs s) :
      Written ('"' :: (cs ++ ['"'])) (.scalar (.string (String.ofList s)))

/-- The tokens of a text, with blanks between what is written for them. -/
inductive Lexed : List Char → List Token → Prop where
  | nil : Lexed [] []
  | blank {cs : List Char} {ts : List Token} {c : Char} (h : Lexed cs ts)
      (hBlank : isBlank c = true) : Lexed (cs ++ [c]) ts
  | token {cs ds : List Char} {ts : List Token} {t : Token} (h : Lexed cs ts)
      (hToken : Written ds t) : Lexed (cs ++ ds) (ts ++ [t])

section Completeness

/-- What a text begins with belongs to no word and no number. -/
def Ends (rest : List Char) : Prop := ∀ c ∈ rest.head?, isNumeralChar c = false ∧ c.isAlpha = false

/-- A text is read as some tokens wherever no word and no number goes on after it. -/
def Spells (cs : List Char) (ts : List Token) : Prop :=
  ∀ tokens rest, Ends rest →
    ofChars .nothing tokens (cs ++ rest) = ofChars .nothing (ts.reverse ++ tokens) rest

theorem ends_cons (h : isNumeralChar c = false ∧ c.isAlpha = false) : Ends (c :: rest) := by
  simpa [Ends] using h

theorem ofText_of_spells {text : String} (h : Spells text.toList ts) : ofText text = .ok ts := by
  have hRead := h [] [] (by simp [Ends])
  simpa [ofText, ofChars, finish, Except.map] using hRead

namespace Spells

theorem nil : Spells [] [] := fun _ _ _ => rfl

theorem append (h : Spells cs ts) (hNext : Spells ds us)
    (hEnds : ∀ rest, Ends rest → Ends (ds ++ rest)) : Spells (cs ++ ds) (ts ++ us) := by
  intro tokens rest hRest
  rw [List.append_assoc, h tokens _ (hEnds rest hRest), hNext _ rest hRest, List.reverse_append,
    List.append_assoc]

/-- A character that is a token, or a blank, before what spells other tokens. -/
theorem cons (h : start c = .ok (.nothing, ts)) (hNext : Spells ds us) :
    Spells (c :: ds) (ts ++ us) := by
  intro tokens rest hRest
  rw [List.cons_append, ofChars, step, h]
  simp only
  rw [hNext _ rest hRest, List.reverse_append, List.append_assoc]

end Spells

/-- Characters that only lengthen the unfinished token are collected. -/
theorem ofChars_append {collected : List Char → Partial}
    (h : ∀ c ∈ ds, ∀ done, step (collected done) c = .ok (collected (c :: done), []))
    (done : List Char) :
    ofChars (collected done) tokens (ds ++ rest) =
      ofChars (collected (ds.reverse ++ done)) tokens rest := by
  induction ds generalizing done with
  | nil => rfl
  | cons c ds ih =>
      rw [List.cons_append, ofChars, h c (by simp)]
      simp only [List.reverse_nil, List.nil_append]
      rw [ih fun d hMem => h d (by simp [hMem])]
      simp

/-- A word or number is complete at the end of the text and before any other character. -/
theorem ofChars_complete {state : Partial} (hFinish : finish state = .ok [t])
    (hStep : ∀ c, isNumeralChar c = false → c.isAlpha = false → step state c = startAfter (.ok t) c)
    (hRest : Ends rest) :
    ofChars state tokens rest = ofChars .nothing (t :: tokens) rest := by
  cases rest with
  | nil =>
      rw [ofChars, ofChars, hFinish]
      simp [finish, Except.map]
  | cons c rest =>
      obtain ⟨hNumeral, hAlpha⟩ := hRest c (by simp)
      rw [ofChars, ofChars, hStep c hNumeral hAlpha, step]
      cases hStart : start c with
      | error e => simp [startAfter, hStart, bind, Except.bind]
      | ok next => simp [startAfter, hStart, bind, Except.bind, pure, Except.pure]

/-- Characters of which the first begins a token and the others lengthen it spell that token. -/
theorem spells_collected {collected : List Char → Partial}
    (hFirst : start c = .ok (collected [c], []))
    (hCollect : ∀ d ∈ cs, ∀ done, step (collected done) d = .ok (collected (d :: done), []))
    (hFinish : finish (collected (c :: cs).reverse) = .ok [t])
    (hStep : ∀ d, isNumeralChar d = false → d.isAlpha = false →
      step (collected (c :: cs).reverse) d = startAfter (.ok t) d) : Spells (c :: cs) [t] := by
  intro tokens rest hRest
  rw [List.cons_append, ofChars, step, hFirst]
  simp only [List.reverse_nil, List.nil_append]
  rw [ofChars_append hCollect, ← List.reverse_cons]
  exact ofChars_complete hFinish hStep hRest

theorem start_of_digit (h : c = '-' ∨ c.isDigit = true) : start c = .ok (.numeral [c], []) := by
  obtain rfl | h := h
  · rfl
  · have hNe : ∀ d : Char, d.isDigit = false → c ≠ d := by
      rintro d hd rfl
      simp [hd] at h
    simp [start, isBlank, h, hNe ' ' rfl, hNe '\t' rfl, hNe '\n' rfl, hNe '\r' rfl, hNe '[' rfl,
      hNe ']' rfl, hNe '\x7b' rfl, hNe '\x7d' rfl, hNe ',' rfl, hNe ':' rfl, hNe '"' rfl]

theorem isNumeralChar_of_isDigit (h : c.isDigit = true) : isNumeralChar c = true := by
  simp [isNumeralChar, h]

/-- Of a text, characters that can stand in a number have been read. -/
def ReadsNumeral (cs rest : List Char) : Prop :=
  ∃ read, cs = read ++ rest ∧ ∀ c ∈ read, isNumeralChar c = true

namespace ReadsNumeral

theorem refl (cs : List Char) : ReadsNumeral cs cs := ⟨[], rfl, by simp⟩

theorem cons (hFirst : isNumeralChar c = true) (h : ReadsNumeral cs rest) :
    ReadsNumeral (c :: cs) rest := by
  obtain ⟨read, rfl, hRead⟩ := h
  exact ⟨c :: read, rfl, List.forall_mem_cons.2 ⟨hFirst, hRead⟩⟩

theorem trans (h : ReadsNumeral cs ds) (hNext : ReadsNumeral ds rest) : ReadsNumeral cs rest := by
  obtain ⟨read, rfl, hRead⟩ := h
  obtain ⟨more, rfl, hMore⟩ := hNext
  exact ⟨read ++ more, (List.append_assoc ..).symm, List.forall_mem_append.2 ⟨hRead, hMore⟩⟩

theorem digits? (h : Numeral.digits? cs = some (ds, rest)) : ReadsNumeral cs rest := by
  obtain ⟨hSplit, -, hDigits⟩ := Numeral.eq_append_of_digits? h
  exact ⟨ds, hSplit, fun c hMem => isNumeralChar_of_isDigit (hDigits c hMem)⟩

theorem fraction? {f : Option (List Char)} (h : Numeral.fraction? cs = some (f, rest)) :
    ReadsNumeral cs rest := by
  unfold Numeral.fraction? at h
  split at h
  · obtain ⟨⟨ds, more⟩, hDigits, hEq⟩ := Option.map_eq_some_iff.1 h
    cases hEq
    exact .cons rfl (.digits? hDigits)
  · cases h
    exact .refl cs

theorem signedDigits? {e : Int} (h : Numeral.signedDigits? cs = some (e, rest)) :
    ReadsNumeral cs rest := by
  unfold Numeral.signedDigits? at h
  split at h <;> obtain ⟨⟨ds, more⟩, hDigits, hEq⟩ := Option.map_eq_some_iff.1 h <;> cases hEq
  · exact .cons rfl (.digits? hDigits)
  · exact .cons rfl (.digits? hDigits)
  · exact .digits? hDigits

theorem exponent? {e : Option Int} (h : Numeral.exponent? cs = some (e, rest)) :
    ReadsNumeral cs rest := by
  unfold Numeral.exponent? at h
  split at h
  case h_3 =>
    cases h
    exact .refl cs
  all_goals
    obtain ⟨⟨e, more⟩, hDigits, hEq⟩ := Option.map_eq_some_iff.1 h
    cases hEq
    exact .cons rfl (.signedDigits? hDigits)

end ReadsNumeral

theorem digits?_of_whole? (h : Numeral.whole? cs = some (ds, rest)) :
    Numeral.digits? cs = some (ds, rest) := by
  unfold Numeral.whole? at h
  split at h
  · cases h
  · exact h

/-- A literal without its sign begins with a digit and has no characters but those of numbers. -/
theorem exists_of_unsigned? {negative : Bool} (h : Numeral.unsigned? negative cs = some n) :
    ∃ c rest, cs = c :: rest ∧ c.isDigit = true ∧ ∀ d ∈ rest, isNumeralChar d = true := by
  simp only [Numeral.unsigned?, Option.bind_eq_bind, Option.bind_eq_some_iff] at h
  obtain ⟨⟨whole, afterWhole⟩, hWhole, ⟨fraction, afterFraction⟩, hFraction,
    ⟨exponent, afterExponent⟩, hExponent, hEnd⟩ := h
  have hDigits := digits?_of_whole? hWhole
  obtain ⟨hSplit, hSome, hAll⟩ := Numeral.eq_append_of_digits? hDigits
  obtain ⟨c, others, rfl⟩ := List.exists_cons_of_ne_nil hSome
  obtain ⟨read, hRead, hChars⟩ :=
    (ReadsNumeral.fraction? hFraction).trans (.exponent? hExponent)
  obtain rfl : afterExponent = [] := by
    by_contra hNe
    simp [hNe] at hEnd
  obtain ⟨hFirst, hOthers⟩ := List.forall_mem_cons.1 hAll
  obtain rfl : afterWhole = read := by simpa using hRead
  exact ⟨c, others ++ afterWhole, hSplit, hFirst, List.forall_mem_append.2
    ⟨fun d hMem => isNumeralChar_of_isDigit (hOthers d hMem), hChars⟩⟩

theorem exists_of_ofChars? (h : Numeral.ofChars? cs = some n) :
    ∃ c rest, cs = c :: rest ∧ (c = '-' ∨ c.isDigit = true) ∧
      ∀ d ∈ rest, isNumeralChar d = true := by
  unfold Numeral.ofChars? at h
  split at h
  · obtain ⟨c, rest, rfl, hDigit, hRest⟩ := exists_of_unsigned? h
    exact ⟨'-', c :: rest, rfl, .inl rfl,
      List.forall_mem_cons.2 ⟨isNumeralChar_of_isDigit hDigit, hRest⟩⟩
  · obtain ⟨c, rest, rfl, hDigit, hRest⟩ := exists_of_unsigned? h
    exact ⟨c, rest, rfl, .inr hDigit, hRest⟩

/-- A number literal is read as its number. -/
theorem spells_numeral (hLiteral : Numeral.ofChars? cs = some n) (hValue : n.toJson? = some j) :
    Spells cs [.scalar j] := by
  have hToken : ofNumeral cs = .ok (.scalar j) := by simp [ofNumeral, hLiteral, hValue]
  obtain ⟨c, others, rfl, hFirst, hOthers⟩ := exists_of_ofChars? hLiteral
  refine spells_collected (start_of_digit hFirst) (fun d hMem done => ?_) ?_ fun d hNumeral _ => ?_
  · simp [step, hOthers d hMem]
  · rw [finish, List.reverse_reverse, hToken]
    rfl
  · simp only [step, hNumeral, Bool.false_eq_true, if_false, List.reverse_reverse, hToken]

/-- A word is read as its value. -/
theorem spells_word (hLetters : cs.all Char.isAlpha = true) (hFirst : start c = .ok (.word [c], []))
    (hToken : ofWord (c :: cs) = .ok t) : Spells (c :: cs) [t] := by
  refine spells_collected hFirst (fun d hMem done => ?_) ?_ fun d _ hAlpha => ?_
  · simp [step, List.all_eq_true.1 hLetters d hMem]
  · rw [finish, List.reverse_reverse, hToken]
    rfl
  · simp only [step, hAlpha, Bool.false_eq_true, if_false, List.reverse_reverse, hToken]

/-- The digits of an escape but for the last one are collected. -/
theorem ofChars_hexDigits {escape : Nat → Nat → Partial} {count value : Nat}
    (hStep : ∀ count value digit c, hexValue? c = some digit → count < 3 →
      step (escape count value) c = .ok (escape (count + 1) (16 * value + digit), []))
    (h : HexDigits count ds value) (hCount : count ≤ 3) (rest : List Char) :
    ofChars (escape 0 0) tokens (ds ++ rest) = ofChars (escape count value) tokens rest := by
  induction h generalizing rest with
  | nil => rfl
  | @snoc count value digit ds c _ hDigit ih =>
      rw [List.append_assoc, ih (by omega), List.singleton_append, ofChars,
        hStep count value digit c hDigit (by omega)]
      rfl

/-- What the four digits of an escape come to. -/
theorem ofChars_unicode {unit : Nat} (h : HexDigits 4 ds unit) :
    ofChars (.string content) tokens ('\\' :: 'u' :: (ds ++ rest)) =
      if isHigh unit then ofChars (.high content unit) tokens rest
      else if isLow unit then .error .loneSurrogate
      else ofChars (.string (Char.ofNat unit :: content)) tokens rest := by
  have hEscape : ofChars (.string content) tokens ('\\' :: 'u' :: (ds ++ rest)) =
      ofChars (.unicode content 0 0) tokens (ds ++ rest) := by
    simp [ofChars, step, stringStep]
  cases h with
  | @snoc _ value digit hs c h hDigit =>
      have hStep : ∀ count value digit c, hexValue? c = some digit → count < 3 →
          step (.unicode content count value) c =
            .ok (.unicode content (count + 1) (16 * value + digit), []) :=
        fun _ _ _ _ hDigit hMore => by simp [step, hDigit, hMore]
      rw [hEscape, List.append_assoc, ofChars_hexDigits hStep h le_rfl, List.singleton_append,
        ofChars, step]
      simp only [hDigit, Nat.lt_irrefl, if_false]
      split_ifs <;> rfl

/-- What the digits of the second half of a pair come to. -/
theorem ofChars_low {first second : Nat} (h : HexDigits 4 ds second) (hLow : isLow second = true) :
    ofChars (.high content first) tokens ('\\' :: 'u' :: (ds ++ rest)) =
      ofChars (.string (ofPair first second :: content)) tokens rest := by
  have hEscape : ofChars (.high content first) tokens ('\\' :: 'u' :: (ds ++ rest)) =
      ofChars (.low content first 0 0) tokens (ds ++ rest) := by
    simp [ofChars, step]
  cases h with
  | @snoc _ value digit hs c h hDigit =>
      have hStep : ∀ count value digit c, hexValue? c = some digit → count < 3 →
          step (.low content first count value) c =
            .ok (.low content first (count + 1) (16 * value + digit), []) :=
        fun _ _ _ _ hDigit hMore => by simp [step, hDigit, hMore]
      rw [hEscape, List.append_assoc, ofChars_hexDigits hStep h le_rfl, List.singleton_append,
        ofChars, step]
      simp [hDigit, hLow]

theorem ofChars_content (h : Content cs ds) (content rest : List Char) :
    ofChars (.string content) tokens (cs ++ rest) =
      ofChars (.string (ds.reverse ++ content)) tokens rest := by
  induction h generalizing content with
  | nil => rfl
  | @plain c cs s hQuote hBackslash hControl _ ih =>
      rw [List.cons_append, ofChars, step, stringStep, if_neg hQuote, if_neg hBackslash,
        if_neg hControl]
      simp [ih]
  | @escape letter c cs s hLetter _ ih =>
      have hNoUnicode : letter ≠ 'u' := by
        rintro rfl
        cases hLetter
      simp [ofChars, step, stringStep, hNoUnicode, hLetter, ih]
  | @unicode hs cs s unit hDigits hHigh hLow _ ih =>
      rw [List.cons_append, List.cons_append, List.append_assoc, ofChars_unicode hDigits]
      simp [hHigh, hLow, ih]
  | @pair hs hs' cs s first second hFirst hHigh hSecond hLow _ ih =>
      rw [List.cons_append, List.cons_append, List.append_assoc, ofChars_unicode hFirst,
        if_pos hHigh, List.cons_append, List.cons_append, List.append_assoc,
        ofChars_low hSecond hLow, ih]
      simp

/-- A string in its quotes is read as that string. -/
theorem spells_string (h : Content cs ds) :
    Spells ('"' :: (cs ++ ['"'])) [.scalar (.string (String.ofList ds))] := by
  intro tokens rest _
  have hContent : ofChars (.string []) tokens (cs ++ '"' :: rest) =
      ofChars (.string (ds.reverse ++ [])) tokens ('"' :: rest) :=
    ofChars_content h [] ('"' :: rest)
  simpa [ofChars, step, stringStep, start, isBlank] using hContent

theorem spells_of_written (h : Written cs t) : Spells cs [t] := by
  cases h with
  | openBracket | closeBracket | openBrace | closeBrace | comma | colon =>
      simpa using Spells.nil.cons rfl
  | null => exact spells_word rfl rfl rfl
  | bool b =>
      cases b with
      | true => exact spells_word rfl rfl rfl
      | false => exact spells_word rfl rfl rfl
  | number hLiteral hValue => exact spells_numeral hLiteral hValue
  | string hContent => exact spells_string hContent

end Completeness

section Soundness

/-- The text of the part of a token that has been read. -/
inductive Pending : List Char → Partial → Prop where
  | nothing : Pending [] .nothing
  | word (letters : List Char) : Pending letters.reverse (.word letters)
  | numeral (chars : List Char) : Pending chars.reverse (.numeral chars)
  | string {cs content : List Char} (h : Content cs content.reverse) :
      Pending ('"' :: cs) (.string content)
  | escape {cs content : List Char} (h : Content cs content.reverse) :
      Pending ('"' :: (cs ++ ['\\'])) (.escape content)
  | unicode {cs content ds : List Char} {count value : Nat} (h : Content cs content.reverse)
      (hDigits : HexDigits count ds value) (hCount : count < 4) :
      Pending ('"' :: (cs ++ '\\' :: 'u' :: ds)) (.unicode content count value)
  | high {cs content ds : List Char} {first : Nat} (h : Content cs content.reverse)
      (hFirst : HexDigits 4 ds first) (hHigh : isHigh first = true) :
      Pending ('"' :: (cs ++ '\\' :: 'u' :: ds)) (.high content first)
  | highEscape {cs content ds : List Char} {first : Nat} (h : Content cs content.reverse)
      (hFirst : HexDigits 4 ds first) (hHigh : isHigh first = true) :
      Pending ('"' :: (cs ++ '\\' :: 'u' :: (ds ++ ['\\']))) (.highEscape content first)
  | low {cs content ds es : List Char} {first count value : Nat} (h : Content cs content.reverse)
      (hFirst : HexDigits 4 ds first) (hHigh : isHigh first = true)
      (hDigits : HexDigits count es value) (hCount : count < 4) :
      Pending ('"' :: (cs ++ '\\' :: 'u' :: (ds ++ '\\' :: 'u' :: es)))
        (.low content first count value)

/-- What has been read: tokens with blanks between them, and a part of the next token. -/
def Scanned (cs : List Char) (ts : List Token) (state : Partial) : Prop :=
  ∃ done pending, cs = done ++ pending ∧ Lexed done ts ∧ Pending pending state

theorem Lexed.scanned (h : Lexed cs ts) : Scanned cs ts .nothing :=
  ⟨cs, [], (List.append_nil cs).symm, h, .nothing⟩

/-- The unfinished token goes on, and no token becomes complete. -/
theorem Lexed.scanned_of_pending (h : Lexed cs ts) (hPending : Pending pending state) :
    Scanned (cs ++ pending) (ts ++ []) state :=
  ⟨cs, pending, rfl, by rwa [List.append_nil], hPending⟩

theorem written_of_ofWord (h : ofWord cs = .ok t) : Written cs t := by
  rw [ofWord] at h
  split_ifs at h with hNull hTrue hFalse <;> cases h
  · exact hNull ▸ .null
  · exact hTrue ▸ .bool true
  · exact hFalse ▸ .bool false

theorem written_of_ofNumeral (h : ofNumeral cs = .ok t) : Written cs t := by
  rw [ofNumeral] at h
  split at h
  · cases h
  · next hLiteral =>
      split at h
      · cases h
      · next hValue =>
          cases h
          exact .number hLiteral hValue

theorem exists_of_map_singleton {token : Except SyntaxError Token}
    (h : token.map ([·]) = .ok more) : ∃ t, token = .ok t ∧ more = [t] := by
  cases token with
  | error e => cases h
  | ok t =>
      cases h
      exact ⟨t, rfl, rfl⟩

/-- Punctuation is a token, and any other character that may begin a token is a part of one. -/
theorem scanned_start (h : Lexed cs ts) (hStart : start c = .ok (next, more)) :
    Scanned (cs ++ [c]) (ts ++ more) next := by
  unfold start at hStart
  split_ifs at hStart with hBlank hOpen hClose hOpenBrace hCloseBrace hComma hColon hQuote hDigit
    hLetter <;> cases hStart
  · simpa using (h.blank hBlank).scanned
  · exact hOpen ▸ (h.token .openBracket).scanned
  · exact hClose ▸ (h.token .closeBracket).scanned
  · exact hOpenBrace ▸ (h.token .openBrace).scanned
  · exact hCloseBrace ▸ (h.token .closeBrace).scanned
  · exact hComma ▸ (h.token .comma).scanned
  · exact hColon ▸ (h.token .colon).scanned
  · exact hQuote ▸ h.scanned_of_pending (.string .nil)
  · exact h.scanned_of_pending (.numeral [c])
  · exact h.scanned_of_pending (.word [c])

/-- A word or number ends at a character that is no part of it. -/
theorem scanned_startAfter {token : Except SyntaxError Token} (h : Lexed cs ts)
    (hToken : ∀ t, token = .ok t → Written pending t)
    (hStart : startAfter token c = .ok (next, more)) :
    Scanned (cs ++ pending ++ [c]) (ts ++ more) next := by
  cases token with
  | error e => cases hStart
  | ok t =>
      cases hNext : start c with
      | error e => simp [startAfter, hNext, bind, Except.bind] at hStart
      | ok found =>
          simp only [startAfter, hNext, bind, Except.bind, pure, Except.pure] at hStart
          cases hStart
          simpa using scanned_start (h.token (hToken t rfl)) hNext

theorem scanned_stringStep (h : Lexed cs ts) (hContent : Content ds content.reverse)
    (hStep : stringStep content c = .ok (next, more)) :
    Scanned (cs ++ '"' :: (ds ++ [c])) (ts ++ more) next := by
  rw [stringStep] at hStep
  split_ifs at hStep with hQuote hBackslash hControl <;> cases hStep
  · exact hQuote ▸ (h.token (.string hContent)).scanned
  · exact hBackslash ▸ h.scanned_of_pending (.escape hContent)
  · refine h.scanned_of_pending (.string ?_)
    rw [List.reverse_cons]
    exact hContent.append (.plain hQuote hBackslash hControl .nil)

theorem scanned_escape (h : Lexed cs ts) (hContent : Content ds content.reverse)
    (hStep : step (.escape content) c = .ok (next, more)) :
    Scanned (cs ++ '"' :: (ds ++ ['\\', c])) (ts ++ more) next := by
  rw [step] at hStep
  split_ifs at hStep with hUnicode
  · cases hStep
    exact hUnicode ▸ h.scanned_of_pending (.unicode hContent .nil (by decide))
  · split at hStep <;> cases hStep
    next hLetter =>
      refine h.scanned_of_pending (.string ?_)
      rw [List.reverse_cons]
      exact hContent.append (.escape hLetter .nil)

theorem scanned_unicode {count value : Nat} (h : Lexed cs ts)
    (hContent : Content ds content.reverse) (hDigits : HexDigits count es value)
    (hCount : count < 4) (hStep : step (.unicode content count value) c = .ok (next, more)) :
    Scanned (cs ++ '"' :: (ds ++ '\\' :: 'u' :: (es ++ [c]))) (ts ++ more) next := by
  simp only [step] at hStep
  split at hStep
  · cases hStep
  · next digit hDigit =>
      have hMore := hDigits.snoc hDigit
      split_ifs at hStep with hFew hHigh hLow <;> cases hStep
      · exact h.scanned_of_pending (.unicode hContent hMore (by omega))
      · obtain rfl : count = 3 := by omega
        exact h.scanned_of_pending (.high hContent hMore hHigh)
      · obtain rfl : count = 3 := by omega
        refine h.scanned_of_pending (.string ?_)
        rw [List.reverse_cons]
        have hUnit := Content.unicode hMore (by simpa using hHigh) (by simpa using hLow) .nil
        rw [List.append_nil] at hUnit
        exact hContent.append hUnit

theorem scanned_low {first count value : Nat} (h : Lexed cs ts)
    (hContent : Content ds content.reverse) {hs : List Char} (hFirst : HexDigits 4 hs first)
    (hHigh : isHigh first = true) (hDigits : HexDigits count es value) (hCount : count < 4)
    (hStep : step (.low content first count value) c = .ok (next, more)) :
    Scanned (cs ++ '"' :: (ds ++ '\\' :: 'u' :: (hs ++ '\\' :: 'u' :: (es ++ [c])))) (ts ++ more)
      next := by
  simp only [step] at hStep
  split at hStep
  · cases hStep
  · next digit hDigit =>
      have hMore := hDigits.snoc hDigit
      split_ifs at hStep with hFew hLow <;> cases hStep
      · exact h.scanned_of_pending (.low hContent hFirst hHigh hMore (by omega))
      · obtain rfl : count = 3 := by omega
        refine h.scanned_of_pending (.string ?_)
        rw [List.reverse_cons]
        have hPair := Content.pair hFirst hHigh hMore hLow .nil
        rw [List.append_nil] at hPair
        exact hContent.append hPair

/-- Reading a character keeps account of the text. -/
theorem scanned_step (h : Scanned cs ts state) (hStep : step state c = .ok (next, more)) :
    Scanned (cs ++ [c]) (ts ++ more) next := by
  obtain ⟨done, pending, rfl, hDone, hPending⟩ := h
  cases hPending with
  | nothing => simpa using scanned_start hDone hStep
  | word letters =>
      rw [step] at hStep
      split_ifs at hStep
      · cases hStep
        simpa using hDone.scanned_of_pending (.word (c :: letters))
      · exact scanned_startAfter hDone (fun _ => written_of_ofWord) hStep
  | numeral chars =>
      rw [step] at hStep
      split_ifs at hStep
      · cases hStep
        simpa using hDone.scanned_of_pending (.numeral (c :: chars))
      · exact scanned_startAfter hDone (fun _ => written_of_ofNumeral) hStep
  | string hContent => simpa using scanned_stringStep hDone hContent hStep
  | escape hContent => simpa using scanned_escape hDone hContent hStep
  | unicode hContent hDigits hCount =>
      simpa using scanned_unicode hDone hContent hDigits hCount hStep
  | high hContent hFirst hHigh =>
      simp only [step] at hStep
      split_ifs at hStep with hBackslash
      cases hStep
      simpa [hBackslash] using hDone.scanned_of_pending (.highEscape hContent hFirst hHigh)
  | highEscape hContent hFirst hHigh =>
      simp only [step] at hStep
      split_ifs at hStep with hUnicode
      cases hStep
      simpa [hUnicode] using
        hDone.scanned_of_pending (.low hContent hFirst hHigh .nil (by decide))
  | low hContent hFirst hHigh hDigits hCount =>
      simpa using scanned_low hDone hContent hFirst hHigh hDigits hCount hStep

/-- A text ends with a token that is complete, or with blanks. -/
theorem lexed_finish (h : Scanned cs ts state) (hFinish : finish state = .ok more) :
    Lexed cs (ts ++ more) := by
  obtain ⟨done, pending, rfl, hDone, hPending⟩ := h
  cases hPending with
  | nothing =>
      cases hFinish
      simpa using hDone
  | word letters =>
      obtain ⟨t, hToken, rfl⟩ := exists_of_map_singleton hFinish
      exact hDone.token (written_of_ofWord hToken)
  | numeral chars =>
      obtain ⟨t, hToken, rfl⟩ := exists_of_map_singleton hFinish
      exact hDone.token (written_of_ofNumeral hToken)
  | string | escape | unicode | high | highEscape | low => cases hFinish

theorem lexed_ofChars (h : Scanned cs tokens.reverse state)
    (hRead : ofChars state tokens rest = .ok ts) : Lexed (cs ++ rest) ts := by
  induction rest generalizing cs state tokens with
  | nil =>
      cases hFinish : finish state with
      | error e => simp [ofChars, hFinish, Except.map] at hRead
      | ok last =>
          simp only [ofChars, hFinish, Except.map] at hRead
          cases hRead
          simpa using lexed_finish h hFinish
  | cons c rest ih =>
      cases hStep : step state c with
      | error e => simp [ofChars, hStep] at hRead
      | ok result =>
          obtain ⟨next, more⟩ := result
          simp only [ofChars, hStep] at hRead
          have hNext := scanned_step h hStep
          rw [← List.reverse_reverse more, ← List.reverse_append] at hNext
          simpa using ih hNext hRead

/-- The tokens that are read from a text are those that it is written with. -/
theorem lexed_ofText {text : String} (h : ofText text = .ok ts) : Lexed text.toList ts :=
  lexed_ofChars (Lexed.nil.scanned) h

end Soundness

end ArrowLisp.Json.Token
