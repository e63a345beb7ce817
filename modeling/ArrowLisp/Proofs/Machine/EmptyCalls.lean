import ArrowLisp.Proofs.Machine.Propagation
import ArrowLisp.Proofs.Machine.Invariants
import ArrowLisp.Proofs.Program.Layout
import ArrowLisp.Proofs.Sexp.Encoding
import ArrowLisp.Proofs.TopEnvironment
import ArrowLisp.Report

/-!
Calls without arguments. No value answers such a call: a primitive wants two arguments or fails
anyway, and a lambda that has been read has a parameter. Closures come to a call by many ways, from
the environment and from programs that were read before, but all of them come from some lambda that
has been read, and this is handed on from the places that are evaluated to the closures made there.
-/

namespace ArrowLisp

/-- The arena of a program that has been read. -/
def Arena.Parsed (a : Arena) : Prop :=
  ∃ s names p names', Program.ofSexp s names = (.ok p, names') ∧ p.arena = a

/-- A closure of a lambda in a program that has been read. -/
structure Closure.OfProgram (c : Closure Value) : Prop where
  parsed : c.arena.Parsed
  lambda : ∃ id span, c.arena.node? id = some (.lambda span c.body) ∧
    c.arena.params? span = some c.params

theorem Closure.OfProgram.length_params_pos {c : Closure Value} (h : c.OfProgram) :
    0 < c.params.length := by
  obtain ⟨⟨s, names, p, names', hProgram, hArena⟩, id, span, hNode, hParams⟩ := h
  rw [← hArena] at hNode hParams
  exact List.length_pos_of_ne_nil (Program.params_ne_nil_of_ofSexp hProgram hNode hParams)

/-- Every primitive fails without arguments. -/
theorem Primitive.exists_error_of_apply_nil (op : Primitive) : ∃ e, op.apply [] = .error e := by
  by_cases hOp : op = .error
  · subst hOp
    exact ⟨_, rfl⟩
  · exact ⟨_, apply_of_length_ne hOp (by simp)⟩

namespace Expr

/-- Only a call without arguments is written as a list of one item. -/
theorem exists_apply_of_toSexp {e : Expr String} {item : Sexp} (h : e.toSexp = .list [item]) :
    ∃ callee, e = .apply callee [] := by
  cases e with
  | apply callee args => simp_all [toSexp]
  | lambda params body =>
      have hLength := congrArg List.length (Sexp.list.inj h)
      simp at hLength
  | _ => simp [toSexp] at h

end Expr

/-- A node that is written as a list of one item is a call without arguments. -/
theorem Arena.exists_empty_call {a : Arena} {id : NodeId} {e : Expr Name} {spell : Name → String}
    {item : Sexp} (hTree : a.tree? id = some e) (hItem : (e.map spell).toSexp = .list [item]) :
    ∃ f span, a.node? id = some (.apply f span) ∧ a.args? span = some [] := by
  obtain ⟨callee, hApply⟩ := Expr.exists_apply_of_toSexp hItem
  cases e with
  | apply callee' args =>
      obtain ⟨-, rfl⟩ : _ ∧ args = [] := by simpa [Expr.map] using hApply
      obtain ⟨f, span, ids, hNode, -, hIds, hArgs⟩ := Arena.exists_apply_of_tree? hTree
      cases hArgs
      exact ⟨f, span, hNode, hIds⟩
  | _ => simp [Expr.map] at hApply

namespace Machine

variable {names : Interner} {scope : Scope} {id f : NodeId} {span : Span}

/-- A moment of a run in programs that have been read, with no closures from anywhere else. -/
abbrev Configuration.OfPrograms (c : Configuration) : Prop :=
  c.Has (fun scope _ => scope.arena.Parsed) Closure.OfProgram

/-- Evaluation in programs that have been read gives closures of such programs. -/
theorem handsOn_ofProgram : HandsOn (fun scope _ => scope.arena.Parsed) Closure.OfProgram := by
  refine .of_children (fun h _ _ _ => h) (fun _ h hNode hParams => ?_) fun h _ => h.parsed
  exact ⟨h, _, _, hNode, hParams⟩

theorem ofPrograms_eval (scope : Scope) (id : NodeId) (n : Nat) (hParsed : scope.arena.Parsed)
    (hEnv : scope.env.Hereditarily Closure.OfProgram) :
    Configuration.OfPrograms ⟨.eval scope id, [], n⟩ :=
  ⟨.eval hParsed hEnv, by simp⟩

/-- Whatever is called without arguments, a primitive or a closure of a program or anything else,
the call fails. -/
theorem exists_error_of_applyValue_nil {callee : Value} (h : callee.Hereditarily Closure.OfProgram)
    (waiting : List Awaiting) (n : Nat) :
    ∃ e, applyValue callee [] waiting n = .done (.error e) := by
  cases callee with
  | number | bool | string => exact ⟨_, rfl⟩
  | primitive op =>
      obtain ⟨e, hError⟩ := op.exists_error_of_apply_nil
      exact ⟨e, by rw [applyValue, hError]⟩
  | closure c =>
      have hPos := h.here.length_params_pos
      cases hExtend : c.env.extend c.params [] with
      | ok env =>
          obtain ⟨hLength, -⟩ := Environment.extend_eq_ok_iff.1 hExtend
          rw [hLength] at hPos
          cases hPos
      | error e => exact ⟨e, by rw [applyValue, hExtend]⟩

/-- Whatever has been waited for as the callee of an empty call, the run fails. -/
theorem exists_error_of_ret (names : Interner) {callee : Value}
    (h : callee.Hereditarily Closure.OfProgram) (hArgs : scope.arena.args? span = some [])
    (n : Nat) :
    ∃ e, Ends names ⟨.ret callee, [.callee scope span], n⟩ (.error e, n) := by
  cases hCallable : callee.isCallable with
  | false => exact ⟨_, .done (resume_callee_notCallable hCallable scope span [] n)⟩
  | true =>
      obtain ⟨e, hCall⟩ := exists_error_of_applyValue_nil h [] n
      have hStep : Steps names ⟨.ret callee, [.callee scope span], n⟩ ⟨.call callee [], [], n⟩ :=
        resume_callee hCallable hArgs [] n
      exact ⟨e, .step hStep (.done hCall)⟩

/-- A call without arguments does not end with a value. -/
theorem not_ends_empty_call {n m : Nat} {v : Value} (hParsed : scope.arena.Parsed)
    (hEnv : scope.env.Hereditarily Closure.OfProgram)
    (hNode : scope.arena.node? id = some (.apply f span))
    (hArgs : scope.arena.args? span = some []) :
    ¬Ends names ⟨.eval scope id, [], n⟩ (.value v, m) := by
  intro h
  have hStep : Steps names ⟨.eval scope id, [], n⟩
      (Configuration.under [.callee scope span] ⟨.eval scope f, [], n⟩) := advance_eval hNode rfl
  rw [ends_iff_of_steps hStep, ends_under_iff] at h
  cases h with
  | fails hFirst hFails => exact hFails v rfl
  | @value w k _ hFirst hSecond =>
      -- The callee has come out of the run, so it is no closure from anywhere else.
      have hReaches : Reaches names _ ⟨.ret w, [.callee scope span], k⟩ := hFirst.reaches_under
      have hHas := handsOn_ofProgram.of_reaches (.head hStep hReaches)
        (ofPrograms_eval scope id n hParsed hEnv)
      cases hHas.control with
      | ret hCallee =>
          obtain ⟨e, hError⟩ := exists_error_of_ret names hCallee hArgs k
          cases hSecond.unique hError

section Eval

variable {arena : Arena} {env : Environment Value} {root : NodeId} {next n : Nat}
  {waiting : List Awaiting}

/-- Wherever a run in programs that have been read has got to, it is in such a program. -/
theorem parsed_of_reaches (hParsed : arena.Parsed) (hEnv : env.Hereditarily Closure.OfProgram)
    (hReaches : Reaches names ⟨.eval ⟨arena, env⟩ root, [], next⟩ ⟨.eval scope id, waiting, n⟩) :
    scope.arena.Parsed ∧ scope.env.Hereditarily Closure.OfProgram := by
  have hStart := ofPrograms_eval ⟨arena, env⟩ root next hParsed hEnv
  have hHas := handsOn_ofProgram.of_reaches hReaches hStart
  cases hHas.control with
  | eval hPlace hScope => exact ⟨hPlace, hScope⟩

/-- An evaluation in the course of which a call without arguments is evaluated has no value. -/
theorem eval_ne_value (hParsed : arena.Parsed) (hEnv : env.Hereditarily Closure.OfProgram)
    (hReaches : Reaches names ⟨.eval ⟨arena, env⟩ root, [], next⟩ ⟨.eval scope id, waiting, n⟩)
    (hNode : scope.arena.node? id = some (.apply f span))
    (hArgs : scope.arena.args? span = some []) (limit : Nat) (v : Value) :
    (eval limit names arena root env next).1 ≠ .value v := by
  intro hValue
  have hEnds : Ends names ⟨.eval ⟨arena, env⟩ root, [], next⟩
      (.value v, (eval limit names arena root env next).2) := by
    rw [← hValue]
    exact ends_run (by rw [show (run names limit _).1 = _ from hValue]; simp)
  obtain ⟨w, k, hAlone⟩ := exists_value_alone ((ends_iff_of_reaches hReaches).1 hEnds)
  obtain ⟨hPlace, hScope⟩ := parsed_of_reaches hParsed hEnv hReaches
  exact not_ends_empty_call hPlace hScope hNode hArgs hAlone

/-- The closures in a value are those of programs that have been read. -/
theorem hereditarily_of_eval {limit : Nat} {v : Value} (hParsed : arena.Parsed)
    (hEnv : env.Hereditarily Closure.OfProgram)
    (hValue : (eval limit names arena root env next).1 = .value v) :
    v.Hereditarily Closure.OfProgram := by
  obtain ⟨c, hReaches, hDone, -⟩ := exists_reaches_of_run (Prod.ext hValue rfl) (by simp)
  have hStart := ofPrograms_eval ⟨arena, env⟩ root next hParsed hEnv
  exact (handsOn_ofProgram.of_reaches hReaches hStart).of_done hDone

end Eval

end Machine

namespace Program

theorem parsed_of_ofSexp {s : Sexp} {i i' : Interner} {p : Program}
    (h : ofSexp s i = (.ok p, i')) : p.arena.Parsed :=
  ⟨s, i, p, i', h, rfl⟩

/-- The run of a program in the outermost environment, as `evaluateText` has it. -/
theorem evaluateText_eq_value_iff {text : String} {s : Sexp} {p : Program} {names : Interner}
    (hText : Sexp.ofText text = .ok s) (hProgram : ofSexp s .empty = (.ok p, names)) {limit : Nat}
    {v : Value} :
    evaluateText limit text = .value v ↔
      (Machine.eval limit names.topEnvironment.2 p.arena p.root names.topEnvironment.1 0).1 =
        .value v := by
  simp only [evaluateText, ofText, hText, hProgram]
  exact Outcome.mapError_eq_value_iff

/-- Calls without arguments have no value. In an environment all of whose closures come from
programs that have been read, no evaluation of a program in which such a call is evaluated comes to
a value, at whatever depth and in whatever arena the call is, and the call on its own does not
either. All closures in a value come from programs again, and have parameters. So the value of a
text is never found by way of a list of one item. -/
theorem no_value_from_empty_call :
    (∀ {s : Sexp} {i i' : Interner} {p : Program} {env : Environment Value},
      ofSexp s i = (.ok p, i') → env.Hereditarily Closure.OfProgram →
      ∀ (names : Interner) (next : Nat),
        (∀ scope id f span waiting n,
          Machine.Reaches names ⟨.eval ⟨p.arena, env⟩ p.root, [], next⟩
            ⟨.eval scope id, waiting, n⟩ →
          scope.arena.node? id = some (.apply f span) → scope.arena.args? span = some [] →
            (∀ limit v, (Machine.eval limit names scope.arena id scope.env n).1 ≠ .value v) ∧
            ∀ limit v, (Machine.eval limit names p.arena p.root env next).1 ≠ .value v) ∧
        ∀ limit v, (Machine.eval limit names p.arena p.root env next).1 = .value v →
          v.Hereditarily fun c => c.OfProgram ∧ 0 < c.params.length) ∧
    ∀ {text : String} {s : Sexp} {p : Program} {names : Interner}, Sexp.ofText text = .ok s →
      ofSexp s .empty = (.ok p, names) → ∀ scope id e item waiting n,
        Machine.Reaches names.topEnvironment.2
          ⟨.eval ⟨p.arena, names.topEnvironment.1⟩ p.root, [], 0⟩ ⟨.eval scope id, waiting, n⟩ →
        scope.arena.tree? id = some e → (e.map names.lookup).toSexp = .list [item] →
          ∀ limit v, evaluateText limit text ≠ .value v := by
  constructor
  · intro s i i' p env hProgram hEnv names next
    have hArena := parsed_of_ofSexp hProgram
    constructor
    · intro scope id f span waiting n hReaches hNode hArgs
      obtain ⟨hParsed, hScope⟩ := Machine.parsed_of_reaches hArena hEnv hReaches
      exact ⟨Machine.eval_ne_value hParsed hScope .refl hNode hArgs,
        Machine.eval_ne_value hArena hEnv hReaches hNode hArgs⟩
    · intro limit v hValue
      exact (Machine.hereditarily_of_eval hArena hEnv hValue).mono
        fun c hc => ⟨hc, hc.length_params_pos⟩
  · intro text s p names hText hProgram scope id e item waiting n hReaches hTree hItem limit v
    obtain ⟨f, span, hNode, hArgs⟩ := Arena.exists_empty_call hTree hItem
    rw [Ne, evaluateText_eq_value_iff hText hProgram]
    exact Machine.eval_ne_value (parsed_of_ofSexp hProgram) names.hereditarily_topEnvironment
      hReaches hNode hArgs limit v

/-- A callee that is a closure of another program, and a list of one item as a condition. -/
theorem no_value_from_empty_call_condition :
    (∃ p env, (ofSexp (.list [.symbol "f"]) .empty).1 = .ok p ∧ (env.lookup ⟨0⟩).isSome ∧
      ∀ limit v, (Machine.eval limit .empty p.arena p.root env 0).1 ≠ .value v) ∧
    ∀ limit v, evaluateText limit "[\"if\",[\"+\"],true,false]" ≠ .value v := by
  constructor
  · have hProgram : (ofSexp (.list [.symbol "f"]) .empty).1 =
        .ok ⟨⟨#[.identifier ⟨0⟩, .apply ⟨0⟩ ⟨0, 0⟩], #[], #[]⟩, ⟨1⟩⟩ := by cbv
    have hLambda : (ofSexp (.list [.symbol "x", .symbol "=>", .symbol "x"]) .empty).1 =
        .ok ⟨⟨#[.identifier ⟨0⟩, .lambda ⟨0, 1⟩ ⟨0⟩], #[], #[⟨0⟩]⟩, ⟨1⟩⟩ := by cbv
    have hClosure : Closure.OfProgram ⟨0, [⟨0⟩], ⟨0⟩, .empty,
        ⟨#[.identifier ⟨0⟩, .lambda ⟨0, 1⟩ ⟨0⟩], #[], #[⟨0⟩]⟩⟩ :=
      ⟨parsed_of_ofSexp (Prod.ext hLambda rfl), ⟨1⟩, ⟨0, 1⟩, rfl, rfl⟩
    have hEnv := Environment.Hereditarily.empty.bind (.closure hClosure (by simp)) ⟨0⟩
    have hCalls := (no_value_from_empty_call.1 (Prod.ext hProgram rfl) hEnv .empty 0).1
    exact ⟨_, _, hProgram, rfl, (hCalls _ _ _ _ _ _ .refl rfl rfl).2⟩
  · have hEncodable : Sexp.Encodable
        (.list [.symbol "if", .list [.symbol "+"], .bool true, .bool false]) :=
      ⟨by simp [Sexp.numbers, Sexp.numbersAll], by decide⟩
    have hText : Sexp.encode "" (.list [.symbol "if", .list [.symbol "+"], .bool true,
        .bool false]) = "[\"if\",[\"+\"],true,false]" := by decide +kernel
    have hGap : Json.Blanks "".toList := by simp [Json.Blanks]
    have hRead := Sexp.ofText_encode_of_reread hGap hEncodable
      (by simp [Sexp.numbers, Sexp.numbersAll])
    rw [hText] at hRead
    have hProgram : (ofSexp (.list [.symbol "if", .list [.symbol "+"], .bool true, .bool false])
        .empty).1 = .ok ⟨⟨#[.identifier ⟨0⟩, .apply ⟨0⟩ ⟨0, 0⟩, .bool true, .bool false,
          .conditional ⟨1⟩ ⟨2⟩ ⟨3⟩], #[], #[]⟩, ⟨4⟩⟩ := by cbv
    exact no_value_from_empty_call.2 hRead (Prod.ext hProgram rfl) _ _ _ _ _ _
      (.single rfl) rfl rfl

end Program

end ArrowLisp
