import ArrowLisp.Arena.Text
import ArrowLisp.Expr

/-!
The expression that a node stands for, read out of its arena. The text that is written from an
arena is the text of this expression: `display?_eq_text`.
-/

namespace ArrowLisp.Arena

/-- The expression of one node, given those of its children. -/
def assemble? (a : Arena) (child : NodeId → Option (Expr Name)) : Node → Option (Expr Name)
  | .number x => some (.number x)
  | .string s => some (.string s)
  | .bool b => some (.bool b)
  | .identifier name => some (.identifier name)
  | .conditional condition consequent alternative =>
    (child condition).bind fun condition =>
      (child consequent).bind fun consequent =>
        (child alternative).map fun alternative => .conditional condition consequent alternative
  | .lambda params body =>
    (a.params? params).bind fun params => (child body).map fun body => .lambda params body
  | .apply callee args =>
    (a.args? args).bind fun args =>
      (child callee).bind fun callee => (args.mapM child).map fun args => .apply callee args

/-- The expression of a node, `none` if it is deeper than `height` or a number met on the way leads
out of the arena. -/
def treeWithin? (a : Arena) : Nat → NodeId → Option (Expr Name)
  | 0, _ => none
  | height + 1, id => (a.node? id).bind (a.assemble? (a.treeWithin? height))

/-- The expression of a node. A chain of children that is longer than the arena has come round to a
node again, and then there is no expression. -/
def tree? (a : Arena) (id : NodeId) : Option (Expr Name) := a.treeWithin? a.size id

/-- The text of pending parts, in order, each node by its expression. -/
def pendingText? (a : Arena) (names : Interner) : List Pending → Option String
  | [] => some ""
  | .text t :: pending => (a.pendingText? names pending).map (t ++ ·)
  | .node height id :: pending =>
    (a.treeWithin? height id).bind fun e =>
      (a.pendingText? names pending).map ((e.map names.lookup).text ++ ·)

theorem pendingText?_append (a : Arena) (names : Interner) (parts pending : List Pending) :
    a.pendingText? names (parts ++ pending) =
      (a.pendingText? names parts).bind fun t => (a.pendingText? names pending).map (t ++ ·) := by
  induction parts with
  | nil => simp [pendingText?]
  | cons part parts ih =>
      cases part <;>
        simp [pendingText?, ih, Option.map_bind, Option.bind_map, Option.bind_assoc,
          Function.comp_def, String.append_assoc]

theorem pendingText?_args (a : Arena) (names : Interner) (height : Nat) (args : List NodeId) :
    a.pendingText? names (args.flatMap fun arg => [.text " ", .node height arg]) =
      (args.mapM (a.treeWithin? height)).map fun args =>
        Expr.argsText (args.map (Expr.map names.lookup)) := by
  induction args with
  | nil => rfl
  | cons arg args ih =>
      cases hArg : a.treeWithin? height arg <;> cases hArgs : args.mapM (a.treeWithin? height) <;>
        simp_all [pendingText?, Expr.argsText, String.append_assoc]

/-- The parts of a node spell the text of its expression. -/
theorem pendingText?_parts? (a : Arena) (names : Interner) (height : Nat) (n : Node) :
    (a.parts? names height n).bind (a.pendingText? names) =
      (a.assemble? (a.treeWithin? height) n).map fun e => (e.map names.lookup).text := by
  cases n with
  | conditional condition consequent alternative =>
      cases hC : a.treeWithin? height condition <;> cases hT : a.treeWithin? height consequent <;>
        cases hE : a.treeWithin? height alternative <;>
        simp [parts?, assemble?, pendingText?, hC, hT, hE, Expr.map, Expr.text, String.append_assoc]
  | lambda params body =>
      cases hParams : a.params? params <;> cases hBody : a.treeWithin? height body <;>
        simp [parts?, assemble?, pendingText?, hParams, hBody, Expr.map, Expr.text,
          String.append_assoc, Function.comp_def]
  | apply callee args =>
      cases hArgs : a.args? args with
      | none => simp [parts?, assemble?, hArgs]
      | some ids =>
          cases hCallee : a.treeWithin? height callee <;>
            cases hIds : ids.mapM (a.treeWithin? height) <;>
            simp [parts?, assemble?, pendingText?, pendingText?_append, pendingText?_args, hArgs,
              hCallee, hIds, Expr.map, Expr.text, String.append_assoc]
  | _ => simp [parts?, assemble?, pendingText?, Expr.map, Expr.text]

theorem write_eq (a : Arena) (names : Interner) (pending : List Pending) (out : String) :
    a.write names pending out = (a.pendingText? names pending).map (out ++ ·) := by
  fun_induction write a names pending out with
  | case1 => simp [pendingText?]
  | case2 t pending out ih => simp [ih, pendingText?, Function.comp_def, String.append_assoc]
  | case3 => simp [pendingText?, treeWithin?]
  | case4 height id pending out parts hParts ih =>
      obtain ⟨n, hNode, hN⟩ := Option.bind_eq_some_iff.1 hParts
      have hText := pendingText?_parts? a names height n
      rw [hN, Option.bind_some] at hText
      rw [ih, pendingText?_append, hText, pendingText?, treeWithin?, hNode, Option.bind_some]
      simp [Option.map_bind, Option.bind_map, Function.comp_def]
  | case5 height id pending out hParts =>
      cases hNode : a.node? id with
      | none => simp [pendingText?, treeWithin?, hNode]
      | some n =>
          have hText := pendingText?_parts? a names height n
          rw [hNode, Option.bind_some] at hParts
          rw [hParts, Option.bind_none, eq_comm, Option.map_eq_none_iff] at hText
          simp [pendingText?, treeWithin?, hNode, hText]

theorem display?_eq_text (a : Arena) (names : Interner) (id : NodeId) :
    a.display? names id = (a.tree? id).map fun e => (e.map names.lookup).text := by
  cases h : a.treeWithin? a.size id <;> simp [display?, write_eq, pendingText?, tree?, h]

end ArrowLisp.Arena
