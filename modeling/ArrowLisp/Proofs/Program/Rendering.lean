import ArrowLisp.Proofs.Program.Answers
import ArrowLisp.Proofs.Program.Canonical

/-!
Programs and trees have one text. A tree is shown item by item and a program out of its arena, name
by name and node by node; what has been read from a tree shows as the tree does, also when more
texts have got names since.
-/

namespace ArrowLisp

namespace Program

/-- A program shows as the tree that it was read from, as long as its names keep their texts. -/
theorem display?_of_ofSexp {s : Sexp} {i i' j : Interner} {p : Program}
    (hProgram : ofSexp s i = (.ok p, i')) (hLater : i'.Extends j) :
    p.display? j = some s.display := by
  obtain ⟨t, -, hRead⟩ := expr?_of_ofSexp hProgram
  have hSpells := (spells_of_ofSexp hProgram hRead).of_extends hLater
  have hTexts : t.text = s.display := by
    rw [Sexp.display_eq_text, ← Expr.text_toSexp, Expr.toSexp_of_ofSexp hRead]
  rw [display?_of_spells hSpells, hTexts]

end Program

/-- A text has a canonical text if it encodes a tree and the tree is a program; the canonical text
is then that of the tree. -/
theorem canonicalText_eq_ok_iff {text shown : String} :
    canonicalText text = .ok shown ↔
      ∃ s p, Sexp.ofText text = .ok s ∧ (Program.ofSexp s .empty).1 = .ok p ∧
        shown = s.display := by
  rw [canonicalText, Program.ofText]
  cases hText : Sexp.ofText text with
  | error e => simp [Except.map]
  | ok s =>
      cases hProgram : Program.ofSexp s .empty with
      | mk result names =>
          cases result with
          | error e => simp [Except.map, hProgram]
          | ok p =>
              have hShown := Program.display?_of_ofSexp hProgram (.refl names)
              simp [Except.map, hProgram, hShown, eq_comm]

/-- The two renderings agree. A program shows as the tree from which it was read, character for
character, also after any further texts have been named. So the canonical text of a text that is a
program is the text of the tree that it encodes. -/
theorem renderings_agree :
    (∀ {s : Sexp} {i i' : Interner} {p : Program}, Program.ofSexp s i = (.ok p, i') →
      ∀ texts, p.display? (i'.internAll texts).2 = some s.display) ∧
    ∀ text shown, canonicalText text = .ok shown ↔
      ∃ s p, Sexp.ofText text = .ok s ∧ (Program.ofSexp s .empty).1 = .ok p ∧
        shown = s.display :=
  ⟨fun hProgram texts =>
      Program.display?_of_ofSexp hProgram (Interner.extends_internAll _ texts),
    fun _ _ => canonicalText_eq_ok_iff⟩

/-- Words of the grammar used as names, a call without arguments and a string with a blank. -/
theorem renderings_agree_words_as_names :
    ∃ p i', Program.ofSexp (.list [.symbol "if", .symbol "=>", .list [.symbol "if",
        .list [.symbol "=>"], .string "a b", .symbol "if"]]) .empty = (.ok p, i') ∧
      p.display? (i'.internAll ["y", "=>"]).2 = some "(if => (if (=>) \"a b\" if))" := by
  have hProgram : (Program.ofSexp (.list [.symbol "if", .symbol "=>", .list [.symbol "if",
      .list [.symbol "=>"], .string "a b", .symbol "if"]]) .empty).1 =
      .ok ⟨⟨#[.identifier ⟨1⟩, .apply ⟨0⟩ ⟨0, 0⟩, .string "a b", .identifier ⟨0⟩,
        .conditional ⟨1⟩ ⟨2⟩ ⟨3⟩, .lambda ⟨0, 1⟩ ⟨4⟩], #[], #[⟨0⟩]⟩, ⟨5⟩⟩ := by cbv
  refine ⟨_, _, Prod.ext hProgram rfl, ?_⟩
  rw [renderings_agree.1 (Prod.ext hProgram rfl), Sexp.display_eq_text]
  rfl

end ArrowLisp
