import ArrowLisp.Diagnostic

/-!
The errors of each stage, one constructor for each cause, and what they say.
-/

namespace ArrowLisp

/-- Why a text could not be read as a literal tree. -/
inductive ReadError where
  /-- The text is not JSON. -/
  | malformed (detail : String)
  /-- The text is JSON, but `found` stands for no literal tree. -/
  | unsupported (found : String)
deriving DecidableEq, Repr

namespace ReadError

/-- The code that is reported. -/
def code : ReadError → ErrorCode
  | .malformed _ => .malformed
  | .unsupported _ => .unsupported

def message : ReadError → String
  | .malformed detail => "malformed input: " ++ detail
  | .unsupported found => found ++ " has no literal-tree encoding"

/-- How strings are written, since a bare JSON string is read as a symbol. -/
def stringNote : String :=
  "strings are written as \x7b\"string\": \"text\"\x7d; bare JSON strings are identifiers"

/-- What helps to mend the text. -/
def notes : ReadError → List String
  | .malformed _ => []
  | .unsupported _ => [stringNote]

end ReadError

/-- Why a literal tree is not a program. -/
inductive ParseError where
  /-- An empty list has no form. -/
  | emptyList
  /-- A lambda with nothing before its arrow. -/
  | missingParameters
  /-- A lambda with something other than a symbol, shown as `found`, before its arrow. -/
  | invalidParameter (found : String)
deriving DecidableEq, Repr

namespace ParseError

/-- The code that is reported. -/
def code : ParseError → ErrorCode
  | .emptyList => .emptyList
  | .missingParameters => .missingParameters
  | .invalidParameter _ => .invalidParameter

def message : ParseError → String
  | .emptyList => "empty list is not an expression"
  | .missingParameters => "lambda requires at least one parameter before \x60=>\x60"
  | .invalidParameter found => "lambda parameter must be an identifier, found " ++ found

end ParseError

/-- Where a value has the wrong kind. Kinds and operations are given by their names. -/
inductive TypeMismatch where
  | conditionNotBool (kind : String)
  | notCallable (kind : String)
  | operandsNotNumbers (operation left right : String)
deriving DecidableEq, Repr

def TypeMismatch.message : TypeMismatch → String
  | .conditionNotBool kind => "condition must be a boolean, got " ++ kind
  | .notCallable kind => "not callable: " ++ kind
  | .operandsNotNumbers operation left right =>
    operation ++ " expects numbers, got " ++ left ++ " and " ++ right

/-- Why a program has no value. -/
inductive EvalError where
  | unboundIdentifier (name : String)
  | typeMismatch (cause : TypeMismatch)
  | arityMismatch (expected got : Nat)
  | divisionByZero
  | noMatchingPrimitive (name : String) (count : Nat)
  /-- The program itself raised an error. -/
  | userError (message : String)
deriving DecidableEq, Repr

namespace EvalError

/-- The code that is reported. -/
def code : EvalError → ErrorCode
  | .unboundIdentifier _ => .unboundIdentifier
  | .typeMismatch _ => .typeMismatch
  | .arityMismatch _ _ => .arityMismatch
  | .divisionByZero => .divisionByZero
  | .noMatchingPrimitive _ _ => .noMatchingPrimitive
  | .userError _ => .userError

/-- A number of arguments in words; only one is singular. -/
def countText (count : Nat) : String :=
  toString count ++ if count = 1 then " argument" else " arguments"

def message : EvalError → String
  | .unboundIdentifier name => "unbound identifier: " ++ name
  | .typeMismatch cause => "type mismatch: " ++ cause.message
  | .arityMismatch expected got =>
    "arity mismatch: expected " ++ countText expected ++ ", got " ++ toString got
  | .divisionByZero => "division by zero"
  | .noMatchingPrimitive name count =>
    "no matching primitive: " ++ name ++ " with " ++ countText count
  | .userError message => "user error: " ++ message

end EvalError

/-- An error of any stage. -/
inductive ProgramError where
  | read (e : ReadError)
  | parse (e : ParseError)
  | eval (e : EvalError)
deriving DecidableEq, Repr

namespace ProgramError

/-- The code that is reported, by which the stage is known. -/
def code : ProgramError → ErrorCode
  | .read e => e.code
  | .parse e => e.code
  | .eval e => e.code

/-- What is said of the program, whatever the stage. -/
def message : ProgramError → String
  | .read e => e.message
  | .parse e => e.message
  | .eval e => e.message

/-- The report of an error. Only a value without encoding comes with a note. -/
def diagnostic (e : ProgramError) : Diagnostic where
  code := e.code
  message := e.message
  notes :=
    match e with
    | .read e => e.notes
    | _ => []

end ProgramError

end ArrowLisp
