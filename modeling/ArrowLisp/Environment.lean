import ArrowLisp.Error
import ArrowLisp.Interner

/-!
Environments: chains of frames, searched from the innermost one outward. An environment is never
changed. Extending it makes a new one that shares the old frames.
-/

namespace ArrowLisp

/-- The bindings made at one time, with at most one for each name. -/
structure Frame (α : Type) where
  bindings : List (Name × α)

namespace Frame

variable {α : Type}

/-- Bind a name, in place of its earlier binding in this frame if it has one. -/
def insert (f : Frame α) (name : Name) (value : α) : Frame α :=
  ⟨(name, value) :: f.bindings.filter (·.1 ≠ name)⟩

/-- The frame of a list of bindings, of which a later one replaces an earlier one. -/
def ofList (bindings : List (Name × α)) : Frame α :=
  bindings.foldl (fun f (name, value) => f.insert name value) ⟨[]⟩

/-- The value that a name is bound to in this frame. -/
def find? (f : Frame α) (name : Name) : Option α := f.bindings.lookup name

/-- The number of distinct names that are bound in this frame. -/
def size (f : Frame α) : Nat := f.bindings.length

end Frame

/-- Frames, innermost first. -/
structure Environment (α : Type) where
  frames : List (Frame α)

namespace Environment

variable {α : Type}

def empty : Environment α := ⟨[]⟩

instance : Inhabited (Environment α) := ⟨empty⟩

/-- One new frame around the present innermost one. -/
def withFrame (e : Environment α) (bindings : List (Name × α)) : Environment α :=
  ⟨Frame.ofList bindings :: e.frames⟩

/-- A new frame with a single binding. -/
def bind (e : Environment α) (name : Name) (value : α) : Environment α :=
  e.withFrame [(name, value)]

/-- A new frame that binds names to values by position. Their numbers have to agree; nothing is
cut off or filled up. -/
def extend (e : Environment α) (names : List Name) (values : List α) :
    Except EvalError (Environment α) :=
  if names.length = values.length then .ok (e.withFrame (names.zip values))
  else .error (.arityMismatch names.length values.length)

/-- The value of a name in the innermost frame that binds it. -/
def lookup (e : Environment α) (name : Name) : Option α := e.frames.findSome? (·.find? name)

def depth (e : Environment α) : Nat := e.frames.length

/-- The number of distinct names in the innermost frame, zero if there is no frame. -/
def innermostSize (e : Environment α) : Nat := (e.frames.head?.map Frame.size).getD 0

/-- How an environment is shown from outside: its measures, not its bindings. -/
def display (e : Environment α) : String :=
  "Environment \x7b depth: " ++ toString e.depth ++ ", innermost_bindings: " ++
    toString e.innermostSize ++ " \x7d"

end Environment

end ArrowLisp
