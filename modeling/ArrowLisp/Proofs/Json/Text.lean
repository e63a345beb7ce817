import ArrowLisp.Proofs.Json.Grammar

/-!
Texts and values. A text is read as a value exactly if it is a spelling of that value, so the syntax
settles what is read, and the text of a whole value is put together from the texts of its parts.
-/

namespace ArrowLisp.Json

open Token (Spells isBlank start isNumeralChar hexValue? isHigh isLow)

variable {n : Nat} {j : Json} {text : String} {cs gap s : List Char} {ts : List Token} {t u : Token}
  {c d : Char} {items : List (List Char × Json)} {members : List MemberSpelling}

section Reading

theorem Token.ends_of_isBlank {rest : List Char} (h : isBlank c = true) : Ends (c :: rest) := by
  have hCases : c = ' ' ∨ c = '\t' ∨ c = '\n' ∨ c = '\r' := by simpa [isBlank] using h
  obtain rfl | rfl | rfl | rfl := hCases <;> exact ends_cons (by decide)

namespace Token.Spells

theorem blank_before (hBlank : isBlank c = true) (h : Spells cs ts) : Spells (c :: cs) ts :=
  cons (show start c = .ok (.nothing, []) from if_pos hBlank) h

theorem blanks (hGap : Blanks gap) : Spells gap [] := by
  simpa using hGap.before (P := fun cs => Spells cs []) blank_before nil

theorem blank_after (hBlank : isBlank c = true) (h : Spells cs ts) : Spells (cs ++ [c]) ts := by
  have hEnd : Spells [c] [] := nil.blank_before hBlank
  simpa using h.append hEnd fun _ _ => ends_of_isBlank hBlank

/-- Text between two characters that are tokens. -/
theorem enclosed (hOpen : start c = .ok (.nothing, [t])) (hClose : start d = .ok (.nothing, [u]))
    (hEnds : isNumeralChar d = false ∧ d.isAlpha = false) (h : Spells cs ts) :
    Spells (c :: (cs ++ [d])) (t :: (ts ++ [u])) :=
  cons hOpen (h.append (cons hClose nil) fun _ _ => ends_cons hEnds)

/-- Texts with a comma after each but the last one. -/
theorem intercalate {css : List (List Char)} {tss : List (List Token)}
    (h : List.Forall₂ Spells css tss) :
    Spells ([','].intercalate css) ([.comma].intercalate tss) := by
  induction h with
  | nil => exact nil
  | @cons cs ts css tss hFirst hRest ih =>
      cases hRest with
      | nil => simpa [List.intercalate] using hFirst
      | cons hNext hOthers =>
          have hTail := cons (c := ',') rfl ih
          rw [List.intercalate_cons_cons, List.intercalate_cons_cons, List.append_assoc,
            List.append_assoc]
          exact hFirst.append hTail fun _ _ => ends_cons (by decide)

end Token.Spells

theorem Quoted.spells {name : String} (h : Quoted cs name) :
    Spells cs [.scalar (.string name)] := by
  induction h with
  | quotes hContent => exact Token.spells_string hContent
  | before hBlank _ ih => exact ih.blank_before hBlank
  | after hBlank _ ih => exact ih.blank_after hBlank

theorem exists_itemTokens (h : ∀ item ∈ items, ∃ ts, Spells item.1 ts ∧ Denotes n ts item.2) :
    ∃ tss, List.Forall₂ Spells (items.map Prod.fst) tss ∧
      List.Forall₂ (Denotes n) tss (items.map Prod.snd) := by
  induction items with
  | nil => exact ⟨[], .nil, .nil⟩
  | cons item items ih =>
      obtain ⟨⟨ts, hText, hValue⟩, hRest⟩ := List.forall_mem_cons.1 h
      obtain ⟨tss, hTexts, hValues⟩ := ih hRest
      exact ⟨ts :: tss, .cons hText hTexts, .cons hValue hValues⟩

theorem MemberSpelling.spells {m : MemberSpelling} (hName : Quoted m.nameText m.name)
    (h : Spells m.valueText ts) : Spells m.text (Denotes.memberTokens (m.name, ts)) :=
  hName.spells.append (Token.Spells.cons (c := ':') rfl h) fun _ _ => Token.ends_cons (by decide)

theorem exists_memberTokens (hNames : ∀ m ∈ members, Quoted m.nameText m.name)
    (h : ∀ m ∈ members, ∃ ts, Spells m.valueText ts ∧ Denotes n ts m.value) :
    ∃ spelled, List.Forall₂ Spells (members.map MemberSpelling.text)
        (spelled.map Denotes.memberTokens) ∧
      Members (Denotes n) spelled (members.map MemberSpelling.member) := by
  induction members with
  | nil => exact ⟨[], .nil, .nil⟩
  | cons m members ih =>
      obtain ⟨hName, hOtherNames⟩ := List.forall_mem_cons.1 hNames
      obtain ⟨⟨ts, hText, hValue⟩, hRest⟩ := List.forall_mem_cons.1 h
      obtain ⟨spelled, hTexts, hValues⟩ := ih hOtherNames hRest
      exact ⟨(m.name, ts) :: spelled, .cons (MemberSpelling.spells hName hText) hTexts,
        .cons m.name hValue hValues⟩

/-- A spelling of a value is read as tokens that stand for the value. -/
theorem Spelling.exists_tokens (h : Spelling n cs j) : ∃ ts, Spells cs ts ∧ Denotes n ts j := by
  induction h with
  | null => exact ⟨_, Token.spells_of_written .null, .scalar _⟩
  | bool b => exact ⟨_, Token.spells_of_written (.bool b), .scalar _⟩
  | number hLiteral hValue => exact ⟨_, Token.spells_numeral hLiteral hValue, .scalar _⟩
  | string hQuoted => exact ⟨_, hQuoted.spells, .scalar _⟩
  | emptyArray hGap =>
      exact ⟨_, (Token.Spells.blanks hGap).enclosed rfl rfl (by decide), .array .nil⟩
  | array _ _ ih =>
      obtain ⟨tss, hTexts, hItems⟩ := exists_itemTokens ih
      exact ⟨_, (Token.Spells.intercalate hTexts).enclosed rfl rfl (by decide), .array hItems⟩
  | emptyObject hGap =>
      exact ⟨_, (Token.Spells.blanks hGap).enclosed rfl rfl (by decide), .object .nil⟩
  | object _ hNames _ ih =>
      obtain ⟨spelled, hTexts, hMembers⟩ := exists_memberTokens hNames ih
      exact ⟨_, (Token.Spells.intercalate hTexts).enclosed rfl rfl (by decide), .object hMembers⟩
  | before hBlank _ ih =>
      obtain ⟨ts, hText, hValue⟩ := ih
      exact ⟨ts, hText.blank_before hBlank, hValue⟩
  | after hBlank _ ih =>
      obtain ⟨ts, hText, hValue⟩ := ih
      exact ⟨ts, hText.blank_after hBlank, hValue⟩

theorem ofText_of_spelling (h : Spelling maxDepth text.toList j) : ofText text = .ok j := by
  obtain ⟨ts, hText, hValue⟩ := h.exists_tokens
  rw [ofText, Token.ofText_of_spells hText, bind_ok, ofTokens_of_denotes hValue le_rfl]

/-- What is read is what the text spells. -/
theorem ofText_eq_ok_iff : ofText text = .ok j ↔ Spelling maxDepth text.toList j :=
  ⟨spelling_of_ofText, ofText_of_spelling⟩

end Reading

section Writing

theorem hexValue?_hexDigit (k : Nat) : hexValue? (hexDigit k) = some (k % 16) := by
  have hDigits : ∀ k < 16, hexValue? (Nat.digitChar k) = some k := by decide
  exact hDigits (k % 16) (Nat.mod_lt k (by decide))

/-- The escape of a character spells that character. -/
theorem content_escapeChar (c : Char) : Content (escapeChar c) [c] := by
  unfold escapeChar
  split
  case h_8 hQuote hBackslash _ _ _ _ _ =>
    split_ifs with hControl
    · have hHigh : isHigh c.toNat = false := by simp [isHigh]; omega
      have hLow : isLow c.toNat = false := by simp [isLow]; omega
      have hZero : hexValue? '0' = some 0 := rfl
      have hZeros : HexDigits 2 ['0', '0'] 0 := (HexDigits.nil.snoc hZero).snoc hZero
      have hDigits := (hZeros.snoc (hexValue?_hexDigit (c.toNat / 16))).snoc
        (hexValue?_hexDigit c.toNat)
      have hUnit : 16 * (16 * 0 + c.toNat / 16 % 16) + c.toNat % 16 = c.toNat := by omega
      rw [hUnit] at hDigits
      simpa using Content.unicode hDigits hHigh hLow .nil
    · exact .plain hQuote hBackslash hControl .nil
  all_goals exact .escape rfl .nil

theorem content_flatMap_escapeChar (s : List Char) : Content (s.flatMap escapeChar) s := by
  induction s with
  | nil => exact .nil
  | cons c s ih => exact (content_escapeChar c).append ih

/-- A string that is written spells itself. -/
theorem quoted_quote (s : String) : Quoted (quote s).toList s := by
  simpa [quote] using Quoted.quotes (content_flatMap_escapeChar s.toList)

/-- Items with a gap after each comma spell their array. -/
theorem spelling_array (hGap : Blanks gap) (h : ∀ item ∈ items, Spelling n item.1 item.2) :
    Spelling (n + 1) ('[' :: ((',' :: gap).intercalate (items.map Prod.fst) ++ [']']))
      (.array (items.map Prod.snd)) := by
  cases items with
  | nil => exact .emptyArray (by simp [Blanks])
  | cons first items =>
      obtain ⟨hFirst, hRest⟩ := List.forall_mem_cons.1 h
      -- The gap after a comma belongs to the item that follows.
      let later := items.map fun item => (gap ++ item.1, item.2)
      have hLater : ∀ item ∈ later, Spelling n item.1 item.2 := by
        intro _ hMem
        obtain ⟨item, hItem, rfl⟩ := List.mem_map.1 hMem
        exact (hRest item hItem).blanks_before hGap
      have hItems : ∀ item ∈ first :: later, Spelling n item.1 item.2 :=
        List.forall_mem_cons.2 ⟨hFirst, hLater⟩
      simpa [later, intercalate_cons, List.flatMap_map, Function.comp_def] using
        Spelling.array (List.cons_ne_nil _ _) hItems

end Writing

/-- What is assumed of a reader of JSON: the strict syntax, nesting of at most `maxDepth` levels, the
last of the members with one name, and numbers converted in steps. That settles the values that it
reads, but not its messages. -/
structure Reader.Standard (read : Reader) : Prop where
  /-- A spelling of a value is read as that value. -/
  reads : ∀ {text : String} {j : Json}, Spelling maxDepth text.toList j → read text = .ok j
  /-- Nothing else is read: neither other texts, nor other values. -/
  strict : ∀ {text : String} {j : Json}, read text = .ok j → Spelling maxDepth text.toList j

theorem reader_eq_ok_iff : reader text = .ok j ↔ ofText text = .ok j := by
  rw [reader]
  cases ofText text <;> simp [Except.mapError]

theorem standard_reader : reader.Standard where
  reads h := reader_eq_ok_iff.2 (ofText_eq_ok_iff.2 h)
  strict h := ofText_eq_ok_iff.1 (reader_eq_ok_iff.1 h)

end ArrowLisp.Json
