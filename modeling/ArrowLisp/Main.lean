import ArrowLisp.CommandLine

/-!
The program itself: it reads the file that an invocation asks for, and prints.
-/

namespace ArrowLisp

/-- The number of a system error, which some calls report with its sign changed. -/
def errorNumber (code : UInt32) : UInt32 := if 0x80000000 ≤ code then -code else code

/-- What a failure of the system to read a file means. -/
def FileError.ofSystem (e : IO.Error) : FileError :=
  match e with
  | .noFileOrDirectory .. => .notFound
  | .permissionDenied .. => .permissionDenied
  | .inappropriateType _ code _ =>
    if errorNumber code = 20 then .notDirectory
    else if errorNumber code = 21 then .isDirectory
    else .other (toString e)
  | .invalidArgument _ code _ =>
    if errorNumber code = 36 then .nameTooLong else .other (toString e)
  | e => .other (toString e)

/-- Read a file as text. -/
def readProgramFile (path : String) : IO (Except FileError String) := do
  try
    let bytes ← IO.FS.readBinFile path
    match String.fromUTF8? bytes with
    | some text => return .ok text
    | none => return .error .invalidText
  catch e => return .error (.ofSystem e)

/-- More steps than a run can take in a lifetime. -/
def stepLimit : Nat := 0x4000000000000000

/-- Carry out an invocation and print what it leaves behind. -/
def runInvocation (invocation : Invocation) : IO UInt32 := do
  let content ←
    match invocation.path? with
    | some path => readProgramFile path
    | none => pure (.error .notFound)
  let response := invocation.respond stepLimit fun _ => content
  IO.print response.stdout
  IO.eprint response.stderr
  return response.status.toUInt32

end ArrowLisp

def main (args : List String) : IO UInt32 :=
  ArrowLisp.runInvocation (ArrowLisp.Invocation.ofArgs args)
