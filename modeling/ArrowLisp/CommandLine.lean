import ArrowLisp.Directory
import ArrowLisp.Report

/-!
The command line: which words ask for what, and what is printed. Reading files is left to the
caller, so that a whole invocation is a function of its words and of what the files hold.
-/

namespace ArrowLisp

/-- What the words of a command line ask for. -/
inductive Invocation where
  | usage
  | version
  /-- Evaluate the program in a file. -/
  | run (path : String) (json : Bool)
  /-- Evaluate a program given as a word. -/
  | eval (source : String) (json : Bool)
  /-- Show the canonical form of the program in a file. -/
  | parse (path : String)
  | missingRunPath
  | missingSource
  | missingParsePath
  | unknown (word : String)
deriving DecidableEq, Repr

/-- The extension of the last component of a path: what follows its last dot, unless nothing
comes before that dot. -/
def pathExtension? (path : String) : Option String :=
  match ((pathComponents path).filter (fun c => c ≠ "" ∧ c ≠ ".")).getLast? with
  | none => none
  | some ".." => none
  | some name =>
    match name.toList.reverse.span (· ≠ '.') with
    | (_, []) => none
    | (_, [_]) => none
    | (reversed, _) => some (String.ofList reversed.reverse)

/-- Whether a path names a program file by its extension, in capitals or not. -/
def isProgramPath (path : String) : Bool :=
  match pathExtension? path with
  | some ext => ext.toList.map Char.toLower = "json".toList
  | none => false

namespace Invocation

/-- The word that asks for a report in JSON. -/
def jsonFlag : String := "--json"

/-- Tell what a command line asks for. Of several files or programs the first counts, and the flag
may stand anywhere after the command. A program file instead of a command is run, whatever
follows it. -/
def ofArgs : List String → Invocation
  | [] => .usage
  | "run" :: rest =>
    match rest.find? (fun word => !word.startsWith "--") with
    | some path => .run path (rest.contains jsonFlag)
    | none => .missingRunPath
  | "eval" :: rest =>
    match rest.find? (fun word => word ≠ jsonFlag) with
    | some source => .eval source (rest.contains jsonFlag)
    | none => .missingSource
  | "parse" :: rest =>
    match rest with
    | path :: _ => .parse path
    | [] => .missingParsePath
  | word :: _ =>
    if ["help", "--help", "-h"].contains word then .usage
    else if ["version", "--version", "-V"].contains word then .version
    else if isProgramPath word then .run word false
    else .unknown word

/-- The file that has to be read first. -/
def path? : Invocation → Option String
  | .run path _ => some path
  | .parse path => some path
  | _ => none

end Invocation

/-- What a run of the command line leaves behind. -/
structure Response where
  status : Nat
  stdout : String
  stderr : String
deriving DecidableEq, Repr

namespace Response

/-- A line on standard output. -/
def success (line : String) : Response := ⟨0, line ++ "\n", ""⟩

/-- A line on standard error, and failure. -/
def failure (line : String) : Response := ⟨1, "", line ++ "\n"⟩

def usageLines : List String :=
  ["Lumo interpreter",
    "",
    "Usage: lumoc <command> [options]",
    "",
    "Commands:",
    "  run <file.json>      Evaluate the program in a file",
    "  eval '<json>'        Evaluate a program given inline",
    "  parse <file.json>    Parse and print the canonical AST",
    "  help                 Show this help message",
    "  version              Show version information",
    "",
    "Options (run, eval):",
    "  --json               Print a JSON result object",
    "",
    "Program encoding:",
    "  numbers, true/false  literals",
    "  \"name\"               identifier",
    "  \x7b\"string\": \"s\"\x7d      string literal",
    "  [ ... ]              list (if / lambda / application)",
    "",
    "Examples:",
    "  lumoc eval '[\"+\", 1, 2]'",
    "  lumoc eval '[[\"x\", \"=>\", [\"*\", \"x\", \"x\"]], 7]' --json",
    "  lumoc run program.json",
    "  RUST_LOG=lumo_eval=debug lumoc run program.json"]

def usageText : String := String.join (usageLines.map (· ++ "\n"))

/-- Report the outcome of a program. In JSON, an error goes to standard output as well. -/
def ofOutcome (json : Bool) (o : Outcome ProgramError) : Response :=
  match o.toExcept? with
  | none => failure "evaluation did not finish"
  | some result =>
    if json then
      let report := RunResult.ofExcept result
      ⟨if report.success then 0 else 1, report.toJson ++ "\n", ""⟩
    else
      match result with
      | .ok v => success v.serialize
      | .error e => failure e.diagnostic.render

end Response

/-- Carry out an invocation, given what reading a path gives. A run takes at most `limit`
steps. -/
def Invocation.respond (limit : Nat) (read : String → Except FileError String) :
    Invocation → Response
  | .usage => ⟨0, Response.usageText, ""⟩
  | .version => .success "lumoc 0.1.0"
  | .run path json =>
    match read path with
    | .ok text => .ofOutcome json (evaluateText limit text)
    | .error e => .failure (e.message path)
  | .eval source json => .ofOutcome json (evaluateText limit source)
  | .parse path =>
    match read path with
    | .ok text =>
      match canonicalText text with
      | .ok canonical => .success canonical
      | .error e => .failure e.diagnostic.render
    | .error e => .failure (e.message path)
  | .missingRunPath =>
    .failure "error: missing file path\nUsage: lumoc run <file.json> [--json]"
  | .missingSource =>
    .failure "error: missing program text\nUsage: lumoc eval '<json>' [--json]"
  | .missingParsePath => .failure "Usage: lumoc parse <file.json>"
  | .unknown word => ⟨1, Response.usageText, "Unknown command: " ++ word ++ "\n\n"⟩

end ArrowLisp
