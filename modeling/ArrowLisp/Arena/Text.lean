import ArrowLisp.Arena
import ArrowLisp.Literal
import ArrowLisp.Worklist

/-!
The text of a program in an arena. It is written front to back, the parts that are still to come
kept in a list, so that depth is no limit. A node may be shown through numbers that point forward
as well as back; a chain of children longer than the arena has come round to a node again and is
not shown.
-/

namespace ArrowLisp.Arena

/-- A part of a text that is still to be written. A node may have children `height` deep. -/
inductive Pending where
  | text (t : String)
  | node (height : Nat) (id : NodeId)

/-- The parts of one node, `none` if its own lists are out of reach. -/
def parts? (a : Arena) (names : Interner) (height : Nat) : Node → Option (List Pending)
  | .number x => some [.text (Literal.number x)]
  | .string s => some [.text (Literal.string s)]
  | .bool b => some [.text (Literal.bool b)]
  | .identifier name => some [.text (names.lookup name)]
  | .conditional condition consequent alternative =>
    some [.text "(if ", .node height condition, .text " ", .node height consequent, .text " ",
      .node height alternative, .text ")"]
  | .lambda params body =>
    (a.params? params).map fun params =>
      [.text ("(" ++ String.join (params.map (names.lookup · ++ " ")) ++ "=> "),
        .node height body, .text ")"]
  | .apply callee args =>
    (a.args? args).map fun args =>
      .text "(" :: .node height callee ::
        (args.flatMap (fun arg => [.text " ", .node height arg]) ++ [.text ")"])

/-- More parts than any node of an arena has. -/
def breadth (a : Arena) : Nat := 2 * a.args.size + 8

/-- A bound on the steps that a node takes. -/
def nodeWeight (a : Arena) : Nat → Nat
  | 0 => 1
  | height + 1 => a.breadth * a.nodeWeight height

/-- A bound on the steps that a part takes. -/
def Pending.weight (a : Arena) : Pending → Nat
  | .text _ => 1
  | .node height _ => a.nodeWeight height

theorem nodeWeight_pos (a : Arena) (height : Nat) : 0 < a.nodeWeight height := by
  induction height with
  | zero => exact Nat.one_pos
  | succ height ih => exact Nat.mul_pos (by simp [breadth]) ih

theorem length_args? {a : Arena} {s : Span} {args : List NodeId} (h : a.args? s = some args) :
    args.length ≤ a.args.size := by
  simp only [args?, Span.slice?, Option.ite_none_right_eq_some, Option.some.injEq] at h
  obtain ⟨hBound, rfl⟩ := h
  rw [Array.length_toList, Array.size_extract]
  omega

theorem length_flatMap_args (height : Nat) (args : List NodeId) :
    (args.flatMap fun arg => [Pending.text " ", .node height arg]).length = 2 * args.length := by
  induction args with
  | nil => rfl
  | cons arg args ih =>
      rw [List.flatMap_cons, List.length_append, ih, List.length_cons]
      simp only [List.length_cons, List.length_nil]
      omega

theorem length_parts? {a : Arena} {names : Interner} {height : Nat} {n : Node}
    {parts : List Pending} (h : a.parts? names height n = some parts) :
    parts.length < a.breadth := by
  cases n with
  | apply callee args =>
      obtain ⟨args, hArgs, rfl⟩ := Option.map_eq_some_iff.1 h
      have := length_args? hArgs
      simp only [breadth, List.length_cons, List.length_append, length_flatMap_args,
        List.length_nil]
      omega
  | lambda params body =>
      obtain ⟨params, -, rfl⟩ := Option.map_eq_some_iff.1 h
      simp [breadth]
  | _ =>
      simp only [parts?, Option.some.injEq] at h
      simp [← h, breadth]

theorem weight_le_of_parts? {a : Arena} {names : Interner} {height : Nat} {n : Node}
    {parts : List Pending} (h : a.parts? names height n = some parts) :
    ∀ p ∈ parts, p.weight a ≤ a.nodeWeight height := by
  have hPos : 1 ≤ a.nodeWeight height := a.nodeWeight_pos height
  cases n with
  | apply callee args =>
      obtain ⟨args, -, rfl⟩ := Option.map_eq_some_iff.1 h
      simp only [List.mem_cons, List.mem_append, List.mem_flatMap]
      grind [Pending.weight]
  | lambda params body =>
      obtain ⟨params, -, rfl⟩ := Option.map_eq_some_iff.1 h
      simp [Pending.weight, hPos]
  | _ =>
      simp only [parts?, Option.some.injEq] at h
      simp [← h, Pending.weight, hPos]

theorem totalWeight_parts? {a : Arena} {names : Interner} {height : Nat} {n : Node}
    {parts : List Pending} (h : a.parts? names height n = some parts) :
    totalWeight (Pending.weight a) parts < a.nodeWeight (height + 1) :=
  calc totalWeight (Pending.weight a) parts
      ≤ parts.length * a.nodeWeight height := totalWeight_le (weight_le_of_parts? h)
    _ < a.breadth * a.nodeWeight height :=
      Nat.mul_lt_mul_of_pos_right (length_parts? h) (a.nodeWeight_pos height)

/-- Write the pending parts, in order, after a text. -/
def write (a : Arena) (names : Interner) : List Pending → String → Option String
  | [], out => some out
  | .text t :: pending, out => write a names pending (out ++ t)
  | .node 0 _ :: _, _ => none
  | .node (height + 1) id :: pending, out =>
    match _hParts : (a.node? id).bind (a.parts? names height) with
    | some parts => write a names (parts ++ pending) out
    | none => none
termination_by pending => totalWeight (Pending.weight a) pending
decreasing_by
  · simp [Pending.weight]
  · obtain ⟨n, -, hNode⟩ := Option.bind_eq_some_iff.1 _hParts
    have := totalWeight_parts? hNode
    simp [Pending.weight]
    omega

/-- The text of a node, `none` if a number met on the way leads out of the arena. -/
def display? (a : Arena) (names : Interner) (id : NodeId) : Option String :=
  write a names [.node a.size id] ""

end ArrowLisp.Arena
