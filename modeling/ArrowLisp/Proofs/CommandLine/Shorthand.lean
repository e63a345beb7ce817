import ArrowLisp.Proofs.CommandLine
import ArrowLisp.Proofs.Report
import ArrowLisp.Proofs.Serialization

/-!
A program file in place of a command. The file is run and the words after it are not looked at, the
flag among them: what is printed is what `run` prints as long as `run` sees no flag and takes the
path for a path.
-/

namespace ArrowLisp

/-- A report is not the text of a value. -/
theorem Shown.ofText?_toJson (r : RunResult) : ofText? r.toJson = none := by
  obtain ⟨cs, hBrace⟩ : ∃ cs, r.toJson.toList = '\x7b' :: cs := ⟨_, r.toList_toJson⟩
  have hNumber : Number.ofText? r.toJson = none :=
    Number.ofText?_eq_none (by rw [hBrace]; rfl) (by rw [hBrace, List.head?_cons]; decide)
  have hWord (word : String) (hFirst : word.toList.head? ≠ some '\x7b') : r.toJson ≠ word := by
    rintro rfl
    exact hFirst (by rw [hBrace, List.head?_cons])
  rw [ofText?]
  split
  · next cs' hQuote => simp [hBrace] at hQuote
  · rw [if_neg (hWord "true" (by decide)), if_neg (hWord "false" (by decide)),
      if_neg (hWord "#<primop>" (by decide)), if_neg (hWord "#<procedure>" (by decide)), hNumber,
      Option.map_none]

/-- What is said of a file that cannot be read does not begin with `error: `. -/
theorem FileError.message_append_ne (e : FileError) (path rest : String) :
    e.message path ++ "\n" ≠ "error: " ++ rest := by
  intro hSame
  have hChars := congrArg String.toList hSame
  unfold message at hChars
  cases e <;> simp at hChars

/-- A diagnostic has its code between `error` and the colon. -/
theorem Diagnostic.render_append_ne (d : Diagnostic) (rest : String) :
    d.render ++ "\n" ≠ "error: " ++ rest := by
  intro hSame
  have hChars := congrArg String.toList hSame
  simp [render] at hChars

namespace Response

/-- The flag makes a difference to every value and to every error. -/
theorem ofOutcome_json_eq_iff {o : Outcome ProgramError} :
    ofOutcome true o = ofOutcome false o ↔ o.toExcept? = none := by
  cases o with
  | dangling | unfinished => exact iff_of_true rfl rfl
  | value v =>
      refine iff_of_false (fun hSame => ?_) (Option.some_ne_none _)
      have hText : (RunResult.ofExcept (.ok v)).toJson ++ "\n" = v.serialize ++ "\n" :=
        congrArg Response.stdout hSame
      have hShown := Value.ofText?_serialize v
      rw [← (String.append_left_inj "\n").1 hText, Shown.ofText?_toJson] at hShown
      cases hShown
  | error e =>
      refine iff_of_false (fun hSame => ?_) (Option.some_ne_none _)
      have hText : (RunResult.ofExcept (.error e)).toJson ++ "\n" = "" :=
        congrArg Response.stdout hSame
      simp at hText

end Response

namespace Invocation

/-- The words that stand for a command. -/
def commandWords : List String :=
  ["run", "eval", "parse", "help", "--help", "-h", "version", "--version", "-V"]

variable {limit : Nat} {read : String → Except FileError String} {path : String}
  {rest : List String}

theorem notMem_commandWords (h : isProgramPath path = true) : path ∉ commandWords := by
  have hNone : ∀ word ∈ commandWords, isProgramPath word = false := by decide +kernel
  intro hMem
  cases h.symm.trans (hNone path hMem)

/-- A program file is run without the flag, whatever follows it. -/
theorem ofArgs_of_isProgramPath (h : isProgramPath path = true) :
    ofArgs (path :: rest) = .run path false := by
  have hWord := notMem_commandWords h
  simp only [commandWords, List.mem_cons, List.not_mem_nil, or_false, not_or] at hWord
  obtain ⟨hRun, hEval, hParse, hHelp, hHelp', hHelp'', hVersion, hVersion', hVersion''⟩ := hWord
  simp [ofArgs, *]

/-- `run` takes its first word for the path unless this begins with two dashes. -/
theorem ofArgs_run_cons (h : path.startsWith "--" = false) :
    ofArgs ("run" :: path :: rest) = .run path (rest.contains jsonFlag) := by
  simp [ofArgs, h, (ne_jsonFlag h).symm]

/-- A word that begins with two dashes and is not the flag is passed over. -/
theorem ofArgs_run_skip (h : path.startsWith "--" = true) (hOther : path ≠ jsonFlag) :
    ofArgs ("run" :: path :: rest) = ofArgs ("run" :: rest) := by
  simp [ofArgs, h, hOther.symm]

theorem respond_run_of_error {json : Bool} {e : FileError} (h : read path = .error e) :
    (Invocation.run path json).respond limit read = .failure (e.message path) := by
  simp only [respond, h]

theorem respond_run_of_ok {json : Bool} {text : String} (h : read path = .ok text) :
    (Invocation.run path json).respond limit read =
      .ofOutcome json (evaluateText limit text) := by
  simp only [respond, h]

/-- Whatever comes of a file, it is not the complaint that there is no path. -/
theorem respond_run_ne_missingRunPath :
    (Invocation.run path false).respond limit read ≠ missingRunPath.respond limit read := by
  obtain ⟨rest, hMissing⟩ :
      ∃ rest, missingRunPath.respond limit read = ⟨1, "", "error: " ++ rest⟩ :=
    ⟨"missing file path\nUsage: lumoc run <file.json> [--json]\n", rfl⟩
  rw [hMissing]
  cases hRead : read path with
  | error e =>
      rw [respond_run_of_error hRead]
      exact fun hSame => e.message_append_ne path rest (congrArg Response.stderr hSame)
  | ok text =>
      rw [respond_run_of_ok hRead]
      cases evaluateText limit text with
      | value v => exact fun hSame => absurd (congrArg Response.status hSame) Nat.zero_ne_one
      | error e =>
          exact fun hSame => e.diagnostic.render_append_ne rest (congrArg Response.stderr hSame)
      | dangling | unfinished =>
          intro hSame
          have hChars := congrArg (fun r => r.stderr.toList) hSame
          simp [Response.ofOutcome, Outcome.toExcept?, Response.failure] at hChars

/-- A program file in place of a command comes to the same as `run` with the same words, but for two
things. The flag is not looked at, so that a value or an error is always reported without JSON; only
of a file that cannot be read, or an evaluation that has been cut off, the same is said. And a path
that begins with two dashes is read all the same, while `run` passes over it, and complains unless
there is another path. -/
theorem shorthand_eq_run_iff (limit : Nat) (read : String → Except FileError String)
    (rest : List String) (hPath : isProgramPath path = true) :
    path ∉ commandWords ∧
    (path.startsWith "--" = false →
      ((ofArgs (path :: rest)).respond limit read =
          (ofArgs ("run" :: path :: rest)).respond limit read ↔
        (jsonFlag ∈ rest →
          ∀ text, read path = .ok text → evaluateText limit text = .unfinished))) ∧
    (path.startsWith "--" = true →
      ofArgs ("run" :: path :: rest) = ofArgs ("run" :: rest) ∧
      ((∀ word ∈ rest, word.startsWith "--" = true) →
        (ofArgs (path :: rest)).respond limit read ≠
          (ofArgs ("run" :: path :: rest)).respond limit read)) := by
  refine ⟨notMem_commandWords hPath, fun hOption => ?_, fun hOption => ?_⟩
  · rw [ofArgs_of_isProgramPath hPath, ofArgs_run_cons hOption]
    by_cases hFlag : jsonFlag ∈ rest
    · rw [List.contains_iff_mem.2 hFlag, forall_prop_of_true hFlag]
      cases hRead : read path with
      | error e => simp [respond_run_of_error hRead]
      | ok text =>
          rw [respond_run_of_ok hRead, respond_run_of_ok hRead, eq_comm,
            Response.ofOutcome_json_eq_iff, toExcept?_evaluateText_eq_none_iff]
          simp
    · have hNone : rest.contains jsonFlag = false := by simpa using hFlag
      rw [hNone]
      exact iff_of_true rfl fun hMem => absurd hMem hFlag
  · have hOther : path ≠ jsonFlag := by
      rintro rfl
      cases hPath
    have hSkip : ofArgs ("run" :: path :: rest) = ofArgs ("run" :: rest) :=
      ofArgs_run_skip hOption hOther
    refine ⟨hSkip, fun hRest => ?_⟩
    have hMissing : ofArgs ("run" :: rest) = .missingRunPath := by
      have hFind : rest.find? (fun word => !word.startsWith "--") = none := by simpa using hRest
      rw [ofArgs, hFind]
    rw [ofArgs_of_isProgramPath hPath, hSkip, hMissing]
    exact respond_run_ne_missingRunPath

/-- A file that is not there is missed in the same words, flag or no flag. -/
theorem shorthand_eq_run_missing_file :
    isProgramPath "sub/One.JSON" = true ∧ "sub/One.JSON".startsWith "--" = false ∧
      (ofArgs ["sub/One.JSON", "two", "--json"]).respond 9 (Directory.ofList []).read =
        (ofArgs ["run", "sub/One.JSON", "two", "--json"]).respond 9 (Directory.ofList []).read := by
  have hPath : isProgramPath "sub/One.JSON" = true := by decide
  have hOption : "sub/One.JSON".startsWith "--" = false := by decide +kernel
  have hMissing : (Directory.ofList []).read "sub/One.JSON" = .error .notFound := by decide +kernel
  have hLaw := shorthand_eq_run_iff 9 (Directory.ofList []).read ["two", "--json"] hPath
  refine ⟨hPath, hOption, (hLaw.2.1 hOption).2 fun _ text hRead => ?_⟩
  cases hMissing.symm.trans hRead

/-- They differ on a file with the flag after it, and on one whose name begins with two dashes. -/
theorem shorthand_ne_run :
    let read := (Directory.ofList
      [("one.json", some "true".toUTF8), ("--two.json", some "true".toUTF8)]).read
    ("one.json" ∉ commandWords ∧ isProgramPath "one.json" = true ∧
      (ofArgs ["one.json", "--json"]).respond 9 read ≠
        (ofArgs ["run", "one.json", "--json"]).respond 9 read) ∧
    "--two.json" ∉ commandWords ∧ isProgramPath "--two.json" = true ∧
      (ofArgs ["--two.json"]).respond 9 read ≠ (ofArgs ["run", "--two.json"]).respond 9 read := by
  decide +kernel

end Invocation

end ArrowLisp
