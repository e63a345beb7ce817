import ArrowLisp.CommandLine
import ArrowLisp.Proofs.Machine.Closedness
import ArrowLisp.Proofs.Machine.Safety

/-!
What the command line prints. The commands that evaluate a program look for their operand each in
its own way, but where there is one operand and nothing else than flags around it, they find it, and
what is printed depends on the text of the program and on whether there is a flag.
-/

namespace ArrowLisp

/-- No evaluation of a text follows a number out of an arena. -/
theorem evaluateText_ne_dangling (limit : Nat) (text : String) :
    evaluateText limit text ≠ .dangling := by
  cases hText : Program.ofText text with
  | error e => simp [evaluateText, hText]
  | ok result =>
      obtain ⟨p, names⟩ := result
      obtain ⟨s, hProgram⟩ := Program.exists_ofSexp_of_ofText hText
      have hRoot : p.root.index < p.arena.size := by
        have hLast := Program.index_root_of_ofSexp hProgram
        omega
      have hGood := Machine.good_eval (Program.wellFormed_of_ofSexp hProgram) hRoot
        names.hereditarily_topEnvironment 0
      simp only [evaluateText, hText, Ne, Outcome.mapError_eq_dangling_iff, Machine.eval]
      exact (hGood.run limit).1

/-- An evaluation of a text without a result has been cut off. -/
theorem toExcept?_evaluateText_eq_none_iff {limit : Nat} {text : String} :
    (evaluateText limit text).toExcept? = none ↔ evaluateText limit text = .unfinished := by
  have hDangling := evaluateText_ne_dangling limit text
  cases hOutcome : evaluateText limit text <;> simp_all [Outcome.toExcept?]

namespace Response

variable {json : Bool} {o : Outcome ProgramError} {result : Except ProgramError Value}

theorem status_ofOutcome_eq_zero_iff : (ofOutcome json o).status = 0 ↔ ∃ v, o = .value v := by
  cases json <;> cases o <;>
    simp [ofOutcome, Outcome.toExcept?, success, failure, RunResult.ofExcept]

/-- With the flag, errors are reported where values are. -/
theorem ofOutcome_json (h : o.toExcept? = some result) :
    (ofOutcome true o).stdout = (RunResult.ofExcept result).toJson ++ "\n" ∧
      (ofOutcome true o).stderr = "" := by
  simp [ofOutcome, h]

theorem ofOutcome_value (v : Value) :
    ofOutcome false (.value v) = ⟨0, v.serialize ++ "\n", ""⟩ := rfl

theorem ofOutcome_error (e : ProgramError) :
    ofOutcome false (.error e) = ⟨1, "", e.diagnostic.render ++ "\n"⟩ := rfl

end Response

namespace Invocation

/-- The words after a command: an operand, with some flags before it and some after it. -/
def words (before : Nat) (operand : String) (after : Nat) : List String :=
  List.replicate before jsonFlag ++ operand :: List.replicate after jsonFlag

variable {before after : Nat} {operand path text : String}

/-- An operand is found among flags by whatever tells it from a flag. -/
theorem find?_words {keep : String → Bool} (hFlag : keep jsonFlag = false)
    (hOperand : keep operand = true) : (words before operand after).find? keep = some operand := by
  simp [words, List.find?_append, hFlag, hOperand]

theorem contains_words (h : operand ≠ jsonFlag) :
    (words before operand after).contains jsonFlag = decide (0 < before + after) := by
  rw [Bool.eq_iff_iff, List.contains_iff_mem, decide_eq_true_iff, words, List.mem_append,
    List.mem_cons, List.mem_replicate, List.mem_replicate]
  have hOther : jsonFlag ≠ operand := h.symm
  grind

theorem startsWith_jsonFlag : jsonFlag.startsWith "--" = true := by decide +kernel

theorem ne_jsonFlag (h : path.startsWith "--" = false) : path ≠ jsonFlag := by
  rintro rfl
  cases h.symm.trans startsWith_jsonFlag

theorem ofArgs_run (h : path.startsWith "--" = false) :
    ofArgs ("run" :: words before path after) = .run path (decide (0 < before + after)) := by
  rw [ofArgs, find?_words (by simp [startsWith_jsonFlag]) (by simp [h]),
    contains_words (ne_jsonFlag h)]

theorem ofArgs_eval (h : text ≠ jsonFlag) :
    ofArgs ("eval" :: words before text after) = .eval text (decide (0 < before + after)) := by
  rw [ofArgs, find?_words (by simp) (by simp [h]), contains_words h]

/-- A program in a file and the same program as a word of the command line come to the same,
whichever flags there are and wherever they stand, as long as there is a flag in both cases or in
neither. The status tells whether there is a value. With a flag, the report goes to standard output
and nothing else is printed. Without one, a value is printed there, and of an error the diagnostic is
printed to standard error. Only an evaluation that has been cut off has neither a value nor an
error. -/
theorem run_eq_eval (limit : Nat) (read read' : String → Except FileError String) (path : String)
    (hRead : read path = .ok text) (hPath : path.startsWith "--" = false) (hText : text ≠ jsonFlag)
    {before' after' : Nat} (hFlags : 0 < before + after ↔ 0 < before' + after') :
    ∃ response,
      (ofArgs ("run" :: words before path after)).respond limit read = response ∧
      (ofArgs ("eval" :: words before' text after')).respond limit read' = response ∧
      (response.status = 0 ↔ ∃ v, evaluateText limit text = .value v) ∧
      (0 < before + after → ∀ result, (evaluateText limit text).toExcept? = some result →
        response.stdout = (RunResult.ofExcept result).toJson ++ "\n" ∧ response.stderr = "") ∧
      (before + after = 0 →
        (∀ v, evaluateText limit text = .value v →
          response.stdout = v.serialize ++ "\n" ∧ response.stderr = "") ∧
        ∀ e, evaluateText limit text = .error e →
          response.stdout = "" ∧ response.stderr = e.diagnostic.render ++ "\n") ∧
      ((∃ result, (evaluateText limit text).toExcept? = some result) ∨
        evaluateText limit text = .unfinished) := by
  refine ⟨.ofOutcome (decide (0 < before + after)) (evaluateText limit text), ?_, ?_,
    Response.status_ofOutcome_eq_zero_iff, fun hSome result hResult => ?_, fun hNone => ?_, ?_⟩
  · rw [ofArgs_run hPath]
    simp only [respond, hRead]
  · rw [ofArgs_eval hText, decide_eq_decide.2 hFlags]
    rfl
  · rw [decide_eq_true hSome]
    exact Response.ofOutcome_json hResult
  · have hFlag : decide (0 < before + after) = false := decide_eq_false (by omega)
    rw [hFlag]
    constructor
    · intro v hValue
      rw [hValue, Response.ofOutcome_value]
      exact ⟨rfl, rfl⟩
    · intro e hError
      rw [hError, Response.ofOutcome_error]
      exact ⟨rfl, rfl⟩
  · rw [← Option.isSome_iff_exists, ← toExcept?_evaluateText_eq_none_iff]
    cases (evaluateText limit text).toExcept? <;> simp

/-- A call that fails, in a file with the flag before it and as a word between two flags. -/
theorem run_eq_eval_between_flags :
    ∃ response e,
      (ofArgs ["run", "--json", "one.json"]).respond 9 (fun _ => .ok "[\"error\"]") = response ∧
      (ofArgs ["eval", "--json", "[\"error\"]", "--json"]).respond 9 (fun _ => .error .notFound) =
        response ∧
      evaluateText 9 "[\"error\"]" = .error e ∧
      response.stdout = (RunResult.ofExcept (.error e)).toJson ++ "\n" ∧ response.stderr = "" := by
  have hPath : "one.json".startsWith "--" = false := by decide +kernel
  have hFlags : 0 < 1 + 0 ↔ 0 < 1 + 1 := by decide
  have hError : evaluateText 9 "[\"error\"]" = .error (.eval (.userError "error called")) :=
    Outcome.error?_eq_some_iff.1 (by decide +kernel)
  obtain ⟨response, hRun, hEval, -, hJson, -⟩ :=
    run_eq_eval 9 (fun _ => .ok "[\"error\"]") (fun _ => .error .notFound) "one.json" rfl hPath
      (by decide) hFlags
  exact ⟨response, _, hRun, hEval, hError, hJson (by decide) _ (by rw [hError]; rfl)⟩

end Invocation

end ArrowLisp
