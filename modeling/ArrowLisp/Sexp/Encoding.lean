import ArrowLisp.Error
import ArrowLisp.Json.Grammar
import ArrowLisp.Json.Text
import ArrowLisp.Sexp

/-!
The encoding of literal trees in JSON. Arrays are lists, bare strings are symbols, and a string is
an object whose only member has the name `string`. Nothing else is a literal tree.
-/

namespace ArrowLisp

/-- The double that a number stands for, for an integer the nearest one. -/
def Json.number? : Json → Option Float
  | .int i => some (Number.ofInt i)
  | .double x => some x
  | _ => none

namespace Sexp

/-- The tree of a number. A number that stood for no double would be refused. -/
def ofNumber (j : Json) : Except ReadError Sexp :=
  match j.number? with
  | some x => .ok (.number x)
  | none => .error (.unsupported ("number " ++ j.text))

@[simp]
theorem ofNumber_int (i : Int) : ofNumber (.int i) = .ok (.number (Number.ofInt i)) := rfl

@[simp]
theorem ofNumber_double (x : Float) : ofNumber (.double x) = .ok (.number x) := rfl

mutual

/-- The tree that a JSON value encodes. The walk goes from left to right and ends at the first
value without a meaning; an object is shown whole and not entered. -/
def ofJson : Json → Except ReadError Sexp
  | .null => .error (.unsupported "null")
  | .bool b => .ok (.bool b)
  | .int i => ofNumber (.int i)
  | .double x => ofNumber (.double x)
  | .string s => .ok (.symbol s)
  | .array items => (ofJsonItems [] items).map .list
  | .object [("string", .string s)] => .ok (.string s)
  | .object members => .error (.unsupported ("object " ++ (Json.object members).text))

/-- The trees that the items of an array encode, after those done, which are in reverse. -/
def ofJsonItems (done : List Sexp) : List Json → Except ReadError (List Sexp)
  | [] => .ok done.reverse
  | item :: items =>
    match ofJson item with
    | .ok s => ofJsonItems (s :: done) items
    | .error e => .error e

end

/-- The tree that a text encodes, with a given reader of JSON. A text that the reader refuses is
refused before anything is looked at. -/
def readWith (read : Json.Reader) (text : String) : Except ReadError Sexp :=
  match read text with
  | .ok j => ofJson j
  | .error message => .error (.malformed message)

/-- The tree that a text encodes. -/
def ofText (text : String) : Except ReadError Sexp := readWith Json.reader text

end Sexp

end ArrowLisp
