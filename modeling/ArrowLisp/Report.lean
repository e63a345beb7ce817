import ArrowLisp.Arena.Text
import ArrowLisp.Machine
import ArrowLisp.Program
import ArrowLisp.Sexp.Encoding

/-!
From a text to what is reported about it: its canonical form, its value, or its error, and the
last two as one line of JSON.
-/

namespace ArrowLisp

namespace Program

/-- The program that a text encodes, with the names in it numbered from zero. -/
def ofText (text : String) : Except ProgramError (Program × Interner) :=
  match Sexp.ofText text with
  | .error e => .error (.read e)
  | .ok s =>
    match ofSexp s .empty with
    | (.error e, _) => .error (.parse e)
    | (.ok program, names) => .ok (program, names)

/-- The canonical text of a program. -/
def display? (p : Program) (names : Interner) : Option String := p.arena.display? names p.root

end Program

/-- The canonical text of the program in a text. A program that has been built shows in full, so
the empty text never stands for one. -/
def canonicalText (text : String) : Except ProgramError String :=
  (Program.ofText text).map fun (program, names) => (program.display? names).getD ""

/-- Evaluate the program in a text in the outermost environment, in at most `limit` steps. -/
def evaluateText (limit : Nat) (text : String) : Outcome ProgramError :=
  match Program.ofText text with
  | .error e => .error e
  | .ok (program, names) =>
    let (env, names) := names.topEnvironment
    (Machine.eval limit names program.arena program.root env 0).1.mapError .eval

/-- What a program that reads the result is told. -/
structure RunResult where
  success : Bool
  /-- The text of the value, empty if there is none. -/
  output : String
  error : Option String
  errorCode : Option String
  errorPhase : Option String
deriving DecidableEq, Repr

namespace RunResult

/-- The report of a value or an error. -/
def ofExcept : Except ProgramError Value → RunResult
  | .ok v => ⟨true, v.serialize, none, none, none⟩
  | .error e => ⟨false, "", some e.message, some e.code.text, some e.code.phase.text⟩

/-- A text that may be absent, as JSON. -/
def optionJson : Option String → String
  | none => "null"
  | some s => Json.quote s

/-- The report as one line of JSON. It is assumed of the serializer of the record that it writes the
members compactly, in the order in which they are declared, and a text that is absent as `null`. -/
def toJson (r : RunResult) : String :=
  "\x7b\"success\":" ++ Literal.bool r.success ++ ",\"output\":" ++ Json.quote r.output ++
    ",\"error\":" ++ optionJson r.error ++ ",\"error_code\":" ++ optionJson r.errorCode ++
    ",\"error_phase\":" ++ optionJson r.errorPhase ++ "\x7d"

end RunResult

end ArrowLisp
