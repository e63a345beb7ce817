import ArrowLisp.Literal
import ArrowLisp.Sexp
import ArrowLisp.Worklist

/-!
The text of a literal tree. `Sexp.text` states it by recursion on the tree, and `Sexp.display`
writes the same text with the open lists kept in a list, so that neither the depth nor the length
of a tree is a limit: `display_eq_text`.
-/

namespace ArrowLisp.Sexp

mutual

/-- The text of a tree: a list is its items between parentheses, one space apart. -/
def text : Sexp → String
  | .number x => Literal.number x
  | .string s => Literal.string s
  | .bool b => Literal.bool b
  | .symbol s => s
  | .list items => "(" ++ itemsText items ++ ")"

/-- The texts of the items of a list, one space apart. -/
def itemsText : List Sexp → String
  | [] => ""
  | [item] => item.text
  | item :: next :: rest => item.text ++ " " ++ itemsText (next :: rest)

end

/-- What is still to be written: a tree, or the items of an open list after its first one. -/
inductive Pending where
  | tree (s : Sexp)
  | rest (items : List Sexp)

namespace Pending

/-- The text that a pending part stands for. The rest of a list closes it. -/
def text : Pending → String
  | .tree s => s.text
  | .rest [] => ")"
  | .rest (item :: items) => " " ++ itemsText (item :: items) ++ ")"

/-- A bound on the steps that a pending part takes. -/
noncomputable def weight : Pending → Nat
  | .tree s => 2 * sizeOf s
  | .rest items => 2 * sizeOf items

end Pending

/-- Write the pending parts, in order, after a text. -/
def write : List Pending → String → String
  | [], out => out
  | .tree (.number x) :: pending, out => write pending (out ++ Literal.number x)
  | .tree (.string s) :: pending, out => write pending (out ++ Literal.string s)
  | .tree (.bool b) :: pending, out => write pending (out ++ Literal.bool b)
  | .tree (.symbol s) :: pending, out => write pending (out ++ s)
  | .tree (.list []) :: pending, out => write pending (out ++ "()")
  | .tree (.list (item :: items)) :: pending, out =>
    write (.tree item :: .rest items :: pending) (out ++ "(")
  | .rest [] :: pending, out => write pending (out ++ ")")
  | .rest (item :: items) :: pending, out =>
    write (.tree item :: .rest items :: pending) (out ++ " ")
termination_by pending => totalWeight Pending.weight pending
decreasing_by
  all_goals simp [Pending.weight]
  all_goals omega

/-- The text of a tree, written front to back. -/
def display (s : Sexp) : String := write [.tree s] ""

/-- An open list, its first item written, continues with the rest of its items. -/
theorem itemsText_cons_append (item : Sexp) (items : List Sexp) :
    itemsText (item :: items) ++ ")" = item.text ++ (Pending.rest items).text := by
  cases items <;> simp [itemsText, Pending.text, String.append_assoc]

theorem itemsText_cons (item : Sexp) (items : List Sexp) :
    itemsText (item :: items) = item.text ++ String.join (items.map (" " ++ ·.text)) := by
  induction items generalizing item with
  | nil => simp [itemsText]
  | cons next items ih => simp [itemsText, ih, String.append_assoc]

/-- Items before others have a space after each. -/
theorem itemsText_append_cons (items : List Sexp) (next : Sexp) (rest : List Sexp) :
    itemsText (items ++ next :: rest) =
      String.join (items.map (·.text ++ " ")) ++ itemsText (next :: rest) := by
  induction items with
  | nil => simp
  | cons item items ih =>
      obtain ⟨first, others, hFirst⟩ : ∃ first others, items ++ next :: rest = first :: others :=
        List.exists_cons_of_ne_nil (by simp)
      rw [List.cons_append, hFirst, itemsText, ← hFirst, ih]
      simp [String.append_assoc]

theorem write_eq (pending : List Pending) (out : String) :
    write pending out = out ++ String.join (pending.map Pending.text) := by
  fun_induction write pending out with
  | case7 item items pending out ih =>
      have hText : (Sexp.list (item :: items)).text =
          "(" ++ (item.text ++ (Pending.rest items).text) := by
        rw [← itemsText_cons_append, text, String.append_assoc]
      rw [ih]
      simp only [List.map_cons, String.join_cons, Pending.text.eq_1, hText, String.append_assoc]
  | case9 item items pending out ih =>
      have hText : (Pending.rest (item :: items)).text =
          " " ++ (item.text ++ (Pending.rest items).text) := by
        rw [← itemsText_cons_append, Pending.text, String.append_assoc]
      rw [ih]
      simp only [List.map_cons, String.join_cons, Pending.text.eq_1, hText, String.append_assoc]
  | _ => simp_all [Pending.text, text, itemsText, String.append_assoc]

theorem display_eq_text (s : Sexp) : s.display = s.text := by
  simp [display, write_eq, Pending.text]

end ArrowLisp.Sexp
