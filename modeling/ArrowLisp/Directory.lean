/-!
A directory as a value: files and directories by their paths, and what reading a path gives.
-/

namespace ArrowLisp

/-- Why a path could not be read as text. -/
inductive FileError where
  | notFound
  | invalidText
  | isDirectory
  | notDirectory
  | permissionDenied
  /-- A component of the path, or the path as a whole, is longer than the system takes. -/
  | nameTooLong
  /-- Another failure, in the words of the system. -/
  | other (detail : String)
deriving DecidableEq, Repr

/-- What is said of a path that could not be read. -/
def FileError.message (path : String) : FileError → String
  | .notFound => "cannot find file '" ++ path ++ "'"
  | .invalidText => "'" ++ path ++ "' contains invalid UTF-8 data"
  | .isDirectory => "error reading '" ++ path ++ "': Is a directory (os error 21)"
  | .notDirectory => "error reading '" ++ path ++ "': Not a directory (os error 20)"
  | .permissionDenied => "permission denied reading '" ++ path ++ "'"
  | .nameTooLong => "error reading '" ++ path ++ "': File name too long (os error 36)"
  | .other detail => "error reading '" ++ path ++ "': " ++ detail

/-- The components of a path, empty ones included. -/
def pathComponents (path : String) : List String :=
  (path.toList.splitOn '/').map String.ofList

/-- The most bytes that a component of a path can have. -/
def maxNameBytes : Nat := 255

/-- The most bytes that a path can have. -/
def maxPathBytes : Nat := 4095

/-- Where a path leads: the names that lead there from this directory, after a `..` for each
directory above it, or after an empty component from the root. -/
abbrev Place := List String

namespace Place

/-- The directory that a path starts from: the root if it begins with a slash, else this one. -/
def start (path : String) : Place := if path.startsWith "/" then [""] else []

/-- Whether a place is this directory, one above it or the root, which exist in any case. -/
def isGiven (place : Place) : Bool := place = [""] ∨ place.all (· = "..")

/-- The directory that a place is in. The root is in itself. -/
def parent (place : Place) : Place :=
  if place = [""] then place
  else if place.all (· = "..") then place ++ [".."]
  else place.dropLast

/-- Where a component leads from a place. -/
def step (place : Place) (component : String) : Place :=
  if component = "" ∨ component = "." then place
  else if component = ".." then place.parent
  else place ++ [component]

end Place

/-- Files with their bytes, and directories without any, by their places. The directories that an
entry is in exist as well. -/
structure Directory where
  entries : List (Place × Option ByteArray)

namespace Directory

/-- The entries that a path makes: the directories that it goes through, and its content at its
end. -/
def entriesAlong (content : Option ByteArray) (place : Place) :
    List String → List (Place × Option ByteArray)
  | [] => [(place, content)]
  | component :: rest => (place, none) :: entriesAlong content (place.step component) rest

/-- The directory of some files and directories, a later one in place of an earlier one. -/
def ofList (entries : List (String × Option ByteArray)) : Directory :=
  ⟨entries.reverse.flatMap fun (path, content) =>
    entriesAlong content (.start path) (pathComponents path)⟩

def file? (d : Directory) (place : Place) : Option ByteArray :=
  (d.entries.lookup place).bind id

/-- Whether something is at a place. -/
def exists? (d : Directory) (place : Place) : Bool :=
  place.isGiven || d.entries.any fun (other, _) => place.isPrefixOf other

/-- Follow the components of a path from a place. Each one has to be looked up in a directory. A
name is too long whether something of that name exists or not. -/
def follow (d : Directory) (place : Place) : List String → Except FileError Place
  | [] => .ok place
  | component :: rest =>
    if (d.file? place).isSome then .error .notDirectory
    else if maxNameBytes < component.utf8ByteSize then .error .nameTooLong
    else if d.exists? (place.step component) then d.follow (place.step component) rest
    else .error .notFound

/-- The text at a path. No other file than the entries is there. -/
def read (d : Directory) (path : String) : Except FileError String :=
  if path = "" then .error .notFound
  else if maxPathBytes < path.utf8ByteSize then .error .nameTooLong
  else
    match d.follow (.start path) (pathComponents path) with
    | .error e => .error e
    | .ok place =>
      match d.file? place with
      | none => .error .isDirectory
      | some bytes =>
        match String.fromUTF8? bytes with
        | some text => .ok text
        | none => .error .invalidText

end Directory

end ArrowLisp
