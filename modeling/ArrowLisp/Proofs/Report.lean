import ArrowLisp.Proofs.Sexp.Encoding
import ArrowLisp.Report

/-!
What a program that runs other programs is told of a result. The report is one line of JSON from
which every part of the result is read back, whatever texts the result carries, and its phase tells
which stage it was that refused the program.
-/

namespace ArrowLisp

open Json (Blanks MemberSpelling Quoted Spelling)

namespace Json

/-- No character of a text is a control character, so that the text is one line. -/
def OneLine (text : String) : Prop := ∀ c ∈ text.toList, 0x20 ≤ c.toNat

theorem OneLine.append {s t : String} (hs : OneLine s) (ht : OneLine t) : OneLine (s ++ t) := by
  intro c hMem
  rw [String.toList_append, List.mem_append] at hMem
  exact hMem.elim (hs c) (ht c)

theorem oneLine_of_all {text : String} (h : text.toList.all (0x20 ≤ ·.toNat) = true) :
    OneLine text := by
  intro c hMem
  simpa using List.all_eq_true.1 h c hMem

theorem hexDigit_ge (n : Nat) : 0x20 ≤ (hexDigit n).toNat := by
  have hDigits : ∀ k < 16, 0x20 ≤ (Nat.digitChar k).toNat := by decide
  exact hDigits (n % 16) (Nat.mod_lt n (by decide))

/-- An escape has no control characters. -/
theorem escapeChar_ge (c : Char) : ∀ d ∈ escapeChar c, 0x20 ≤ d.toNat := by
  unfold escapeChar
  split
  case h_8 =>
    split_ifs with hControl
    · simp [hexDigit_ge]
    · simpa using hControl
  all_goals simp

theorem oneLine_quote (s : String) : OneLine (quote s) := by
  refine .append (.append (oneLine_of_all rfl) fun c hMem => ?_) (oneLine_of_all rfl)
  rw [String.toList_ofList, List.mem_flatMap] at hMem
  obtain ⟨d, -, hEscape⟩ := hMem
  exact escapeChar_ge d c hEscape

/-- A text that may be absent, as a value. -/
def ofOption : Option String → Json
  | none => .null
  | some s => .string s

end Json

namespace RunResult

variable {r : RunResult} {n : Nat}

theorem oneLine_optionJson (s : Option String) : Json.OneLine (optionJson s) := by
  cases s with
  | none => exact Json.oneLine_of_all rfl
  | some s => exact Json.oneLine_quote s

theorem oneLine_toJson (r : RunResult) : Json.OneLine r.toJson := by
  have hBool : Json.OneLine (Literal.bool r.success) := by
    cases r.success <;> exact Json.oneLine_of_all rfl
  unfold toJson
  refine .append (.append (.append (.append (.append (.append (.append (.append (.append (.append
    ?_ hBool) ?_) (Json.oneLine_quote _)) ?_) (oneLine_optionJson _)) ?_) (oneLine_optionJson _))
    ?_) (oneLine_optionJson _)) ?_ <;> exact Json.oneLine_of_all rfl

theorem spelling_optionJson (s : Option String) :
    Spelling n (optionJson s).toList (Json.ofOption s) := by
  cases s with
  | none => exact .null
  | some s => exact .string (Json.quoted_quote s)

/-- The report as a value. -/
def json (r : RunResult) : Json :=
  .object [("error", .ofOption r.error), ("error_code", .ofOption r.errorCode),
    ("error_phase", .ofOption r.errorPhase), ("output", .string r.output),
    ("success", .bool r.success)]

/-- A member of the report, with the text of its value. -/
def memberSpelling (name text : String) (j : Json) : MemberSpelling :=
  ⟨(Json.quote name).toList, name, text.toList, j⟩

/-- The members of the report in the order in which they are written. -/
def members (r : RunResult) : List MemberSpelling :=
  [memberSpelling "success" (Literal.bool r.success) (.bool r.success),
    memberSpelling "output" (Json.quote r.output) (.string r.output),
    memberSpelling "error" (optionJson r.error) (.ofOption r.error),
    memberSpelling "error_code" (optionJson r.errorCode) (.ofOption r.errorCode),
    memberSpelling "error_phase" (optionJson r.errorPhase) (.ofOption r.errorPhase)]

theorem toList_toJson (r : RunResult) :
    r.toJson.toList =
      '\x7b' :: ([','].intercalate (r.members.map MemberSpelling.text) ++ ['\x7d']) := by
  have hSuccess : Json.quote "success" = "\"success\"" := by decide
  have hOutput : Json.quote "output" = "\"output\"" := by decide
  have hError : Json.quote "error" = "\"error\"" := by decide
  have hCode : Json.quote "error_code" = "\"error_code\"" := by decide
  have hPhase : Json.quote "error_phase" = "\"error_phase\"" := by decide
  unfold toJson
  simp only [members, memberSpelling, MemberSpelling.text, List.map_cons, List.map_nil,
    Json.intercalate_cons, List.flatMap_cons, List.flatMap_nil, hSuccess, hOutput, hError, hCode,
    hPhase, String.toList_append]
  simp

theorem collect_members (r : RunResult) :
    .object (Json.collect [] (r.members.map MemberSpelling.member)) = r.json := by
  simp only [members, memberSpelling, MemberSpelling.member, json, Json.collect, List.map_cons,
    List.map_nil, List.foldl_cons, List.foldl_nil, Json.insertMember, String.reduceEq,
    String.reduceLT, if_true, if_false]

theorem spelling_toJson (r : RunResult) : Spelling (n + 1) r.toJson.toList r.json := by
  have hNames : ∀ m ∈ r.members, Quoted m.nameText m.name := by
    simp [members, memberSpelling, Json.quoted_quote]
  have hValues : ∀ m ∈ r.members, Spelling n m.valueText m.value := by
    simp [members, memberSpelling, spelling_optionJson, Spelling.bool,
      Spelling.string (Json.quoted_quote _)]
  rw [toList_toJson, ← collect_members]
  exact .object (List.cons_ne_nil _ _) hNames hValues

/-- The report is read as what it reports, by any standard reader. -/
theorem read_toJson {read : Json.Reader} (hRead : read.Standard) (r : RunResult) :
    read r.toJson = .ok r.json :=
  hRead.reads (spelling_toJson r)

theorem ofText_toJson (r : RunResult) : Json.ofText r.toJson = .ok r.json :=
  Json.reader_eq_ok_iff.1 (read_toJson Json.standard_reader r)

end RunResult

/-- What a program comes to in the outermost environment. -/
def Program.outcome (limit : Nat) (p : Program) (names : Interner) : Outcome EvalError :=
  (Machine.eval limit names.topEnvironment.2 p.arena p.root names.topEnvironment.1 0).1

/-- The stages of a text up to its result: what refuses a text that has no value. -/
inductive Stages (limit : Nat) (text : String) : Except ProgramError Value → Prop where
  | unread {e : ReadError} (h : Sexp.ofText text = .error e) : Stages limit text (.error (.read e))
  | unparsed {s : Sexp} {e : ParseError} {names : Interner} (hRead : Sexp.ofText text = .ok s)
      (h : Program.ofSexp s .empty = (.error e, names)) : Stages limit text (.error (.parse e))
  | failed {s : Sexp} {p : Program} {names : Interner} {e : EvalError}
      (hRead : Sexp.ofText text = .ok s) (hProgram : Program.ofSexp s .empty = (.ok p, names))
      (h : p.outcome limit names = .error e) : Stages limit text (.error (.eval e))
  | evaluated {s : Sexp} {p : Program} {names : Interner} {v : Value}
      (hRead : Sexp.ofText text = .ok s) (hProgram : Program.ofSexp s .empty = (.ok p, names))
      (h : p.outcome limit names = .value v) : Stages limit text (.ok v)

variable {limit : Nat} {text : String} {result : Except ProgramError Value}

theorem stages_of_evaluateText (h : (evaluateText limit text).toExcept? = some result) :
    Stages limit text result := by
  rw [evaluateText, Program.ofText] at h
  cases hRead : Sexp.ofText text with
  | error e =>
      rw [hRead] at h
      cases h
      exact .unread hRead
  | ok s =>
      rw [hRead] at h
      simp only at h
      cases hProgram : Program.ofSexp s .empty with
      | mk parsed names =>
          rw [hProgram] at h
          cases parsed with
          | error e =>
              cases h
              exact .unparsed hRead hProgram
          | ok p =>
              have hOutcome : ((p.outcome limit names).mapError ProgramError.eval).toExcept? =
                  some result := h
              cases hRun : p.outcome limit names with
              | value v =>
                  rw [hRun] at hOutcome
                  cases hOutcome
                  exact .evaluated hRead hProgram hRun
              | error e =>
                  rw [hRun] at hOutcome
                  cases hOutcome
                  exact .failed hRead hProgram hRun
              | dangling | unfinished =>
                  rw [hRun] at hOutcome
                  cases hOutcome

/-- The codes of a stage are reported under its name. -/
theorem ReadError.phase_text (e : ReadError) : e.code.phase.text = "read" := by cases e <;> rfl

theorem ParseError.phase_text (e : ParseError) : e.code.phase.text = "parse" := by
  cases e <;> rfl

theorem EvalError.phase_text (e : EvalError) : e.code.phase.text = "eval" := by cases e <;> rfl

theorem RunResult.errorPhase_ofExcept (result : Except ProgramError Value) :
    (ofExcept result).errorPhase =
      match result with
      | .error (.read _) => some "read"
      | .error (.parse _) => some "parse"
      | .error (.eval _) => some "eval"
      | .ok _ => none := by
  match result with
  | .error (.read e) => exact congrArg some e.phase_text
  | .error (.parse e) => exact congrArg some e.phase_text
  | .error (.eval e) => exact congrArg some e.phase_text
  | .ok _ => rfl

namespace Stages

theorem read_iff (h : Stages limit text result) :
    (RunResult.ofExcept result).errorPhase = some "read" ↔ ∃ e, Sexp.ofText text = .error e := by
  rw [RunResult.errorPhase_ofExcept]
  cases h with
  | unread h => simp [h]
  | unparsed hRead | failed hRead | evaluated hRead => simp [hRead]

theorem parse_iff (h : Stages limit text result) :
    (RunResult.ofExcept result).errorPhase = some "parse" ↔
      ∃ s e, Sexp.ofText text = .ok s ∧ (Program.ofSexp s .empty).1 = .error e := by
  rw [RunResult.errorPhase_ofExcept]
  cases h with
  | unread h => simp [h]
  | unparsed hRead h => simp [hRead, h]
  | failed hRead hProgram | evaluated hRead hProgram => simp [hRead, hProgram]

theorem eval_iff (h : Stages limit text result) :
    (RunResult.ofExcept result).errorPhase = some "eval" ↔
      ∃ s p names e, Sexp.ofText text = .ok s ∧ Program.ofSexp s .empty = (.ok p, names) ∧
        p.outcome limit names = .error e := by
  rw [RunResult.errorPhase_ofExcept]
  cases h with
  | unread h => simp [h]
  | unparsed hRead h => simp [hRead, h]
  | failed hRead hProgram h | evaluated hRead hProgram h => simp [hRead, hProgram, h]

/-- There is no canonical text for the same reason as there is no result, unless it is for the
evaluation that there is none. -/
theorem canonical_iff (h : Stages limit text result) (e : ProgramError) :
    canonicalText text = .error e ↔
      result = .error e ∧ ((RunResult.ofExcept result).errorPhase = some "read" ∨
        (RunResult.ofExcept result).errorPhase = some "parse") := by
  rw [RunResult.errorPhase_ofExcept, canonicalText, Program.ofText]
  cases h with
  | unread h => simp [h, Except.map]
  | unparsed hRead h => simp [hRead, h, Except.map]
  | failed hRead hProgram | evaluated hRead hProgram => simp [hRead, hProgram, Except.map]

end Stages

/-- What a report says of the result of a text. -/
structure RunResult.Faithful (limit : Nat) (text : String) (result : Except ProgramError Value)
    (r : RunResult) : Prop where
  oneLine : Json.OneLine r.toJson
  /-- The report is an object of five members, which hold what is reported and nothing else. -/
  decoded : Json.ofText r.toJson =
    .ok (.object [("error", .ofOption r.error), ("error_code", .ofOption r.errorCode),
      ("error_phase", .ofOption r.errorPhase), ("output", .string r.output),
      ("success", .bool r.success)])
  success_iff : r.success = true ↔ ∃ v, result = .ok v
  success_iff_none :
    r.success = true ↔ r.error = none ∧ r.errorCode = none ∧ r.errorPhase = none
  output_of_value : ∀ v, result = .ok v → r.output = v.serialize
  output_of_error : ∀ e, result = .error e → r.output = ""
  read_iff : r.errorPhase = some "read" ↔ ∃ e, Sexp.ofText text = .error e
  parse_iff : r.errorPhase = some "parse" ↔
    ∃ s e, Sexp.ofText text = .ok s ∧ (Program.ofSexp s .empty).1 = .error e
  eval_iff : r.errorPhase = some "eval" ↔
    ∃ s p names e, Sexp.ofText text = .ok s ∧ Program.ofSexp s .empty = (.ok p, names) ∧
      p.outcome limit names = .error e
  /-- A text has no canonical text for the reason that is reported, if it is refused before it is
  evaluated, and only then. -/
  canonical_iff : ∀ e, canonicalText text = .error e ↔
    result = .error e ∧ (r.errorPhase = some "read" ∨ r.errorPhase = some "parse")

/-- Reports are faithful: what is told of a text that has a result is that result. -/
theorem RunResult.faithful_of_evaluateText (h : (evaluateText limit text).toExcept? = some result) :
    Faithful limit text result (ofExcept result) := by
  have hStages := stages_of_evaluateText h
  refine ⟨oneLine_toJson _, ofText_toJson _, ?_, ?_, ?_, ?_, hStages.read_iff, hStages.parse_iff,
    hStages.eval_iff, hStages.canonical_iff⟩
  · cases result <;> simp [ofExcept]
  · cases result <;> simp [ofExcept]
  · rintro v rfl
    rfl
  · rintro e rfl
    rfl

/-- A lambda with a parameter that is a string of a quote and a line break. -/
def Sexp.quotedParameter : Sexp := .list [.string "\"\n", .symbol "=>", .bool true]

theorem RunResult.faithful_of_evaluateText_quoted :
    (evaluateText 0 (Sexp.quotedParameter.encode "")).toExcept? =
        some (.error (.parse (.invalidParameter "\"\"\n\""))) ∧
      Faithful 0 (Sexp.quotedParameter.encode "") (.error (.parse (.invalidParameter "\"\"\n\"")))
        (ofExcept (.error (.parse (.invalidParameter "\"\"\n\"")))) := by
  have hGap : Blanks "".toList := by simp [Blanks]
  have hEncodable : Sexp.quotedParameter.Encodable :=
    ⟨by simp [Sexp.quotedParameter, Sexp.numbers, Sexp.numbersAll], by decide⟩
  have hNumbers : ∀ x ∈ Sexp.quotedParameter.numbers, Number.reread x = x := by
    simp [Sexp.quotedParameter, Sexp.numbers, Sexp.numbersAll]
  have hResult : (evaluateText 0 (Sexp.quotedParameter.encode "")).toExcept? =
      some (.error (.parse (.invalidParameter "\"\"\n\""))) := by
    rw [evaluateText, Program.ofText, Sexp.ofText_encode_of_reread hGap hEncodable hNumbers]
    cbv
  exact ⟨hResult, faithful_of_evaluateText hResult⟩

end ArrowLisp
