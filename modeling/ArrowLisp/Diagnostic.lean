/-!
Error codes and the report in which one reaches the user.
-/

namespace ArrowLisp

/-- The stages through which a program passes, each of which can refuse it. -/
inductive Phase where
  | read
  | parse
  | eval
deriving DecidableEq, Repr

/-- The word for a stage. -/
def Phase.text : Phase → String
  | .read => "read"
  | .parse => "parse"
  | .eval => "eval"

/-- One code for every kind of error. -/
inductive ErrorCode where
  | malformed
  | unsupported
  | emptyList
  | missingParameters
  | invalidParameter
  | unboundIdentifier
  | typeMismatch
  | arityMismatch
  | divisionByZero
  | noMatchingPrimitive
  | userError
deriving DecidableEq, Repr

namespace ErrorCode

/-- Every code, in the order of the stages. -/
def all : List ErrorCode :=
  [.malformed, .unsupported, .emptyList, .missingParameters, .invalidParameter,
    .unboundIdentifier, .typeMismatch, .arityMismatch, .divisionByZero, .noMatchingPrimitive,
    .userError]

/-- The code as it is printed. Its first digit tells the stage. -/
def text : ErrorCode → String
  | .malformed => "E0001"
  | .unsupported => "E0002"
  | .emptyList => "E1001"
  | .missingParameters => "E1002"
  | .invalidParameter => "E1003"
  | .unboundIdentifier => "E6001"
  | .typeMismatch => "E6002"
  | .arityMismatch => "E6003"
  | .divisionByZero => "E6004"
  | .noMatchingPrimitive => "E6005"
  | .userError => "E6006"

/-- The stage that raises a code. -/
def phase : ErrorCode → Phase
  | .malformed | .unsupported => .read
  | .emptyList | .missingParameters | .invalidParameter => .parse
  | .unboundIdentifier | .typeMismatch | .arityMismatch | .divisionByZero
  | .noMatchingPrimitive | .userError => .eval

/-- The code that is printed as the given text. -/
def ofText? (s : String) : Option ErrorCode := all.find? (·.text == s)

end ErrorCode

/-- What is reported of an error: its code, its message and notes that help to mend it. -/
structure Diagnostic where
  code : ErrorCode
  message : String
  notes : List String
deriving DecidableEq, Repr

namespace Diagnostic

/-- The report as it is printed: code and message on the first line, then the notes. -/
def render (d : Diagnostic) : String :=
  "error[" ++ d.code.text ++ "]: " ++ d.message ++
    String.join (d.notes.map fun note => "\n  = note: " ++ note)

end Diagnostic

end ArrowLisp
