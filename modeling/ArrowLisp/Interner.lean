import Std.Data.TreeMap
import Std.Data.TreeMap.Lemmas

/-!
Names of identifiers. An interner gives every distinct string one small number, in the order in
which the strings first come, and gives the string back for the number.
-/

namespace ArrowLisp

/-- An interned identifier. Two names of one interner are equal exactly if their texts are. -/
structure Name where
  index : Nat
deriving DecidableEq, Repr

/-- How a name is shown to someone who looks at an interner from outside. -/
def Name.display (n : Name) : String := s!"Name({n.index})"

/-- The distinct strings seen so far, in order of first occurrence, and the place of each. -/
structure Interner where
  strings : Array String
  positions : Std.TreeMap String Nat
  /-- Each of the two tables is the inverse of the other. -/
  positions_iff : ∀ (s : String) (i : Nat), positions[s]? = some i ↔ strings[i]? = some s

/-- The one way in which interning can fail: there is no number left for a new string. -/
inductive InternError where
  | overflow (count : Nat)
deriving DecidableEq, Repr

namespace Interner

/-- The number of strings that have names, as many as there are 32-bit indices. -/
def capacity : Nat := 0x100000000

def empty : Interner := ⟨#[], ∅, by simp⟩

instance : Inhabited Interner := ⟨empty⟩

def size (i : Interner) : Nat := i.strings.size

/-- The name of a string, if it has been interned. -/
def find? (i : Interner) (s : String) : Option Name := i.positions[s]?.map Name.mk

/-- A string without a position does not occur, so both tables can take it at the end. -/
theorem positions_iff_push (i : Interner) {s : String} (hNew : i.find? s = none) (t : String)
    (k : Nat) :
    (i.positions.insert s i.size)[t]? = some k ↔ (i.strings.push s)[k]? = some t := by
  have hFresh : ∀ k : Nat, i.strings[k]? ≠ some s := by
    intro k hk
    rw [← i.positions_iff] at hk
    simp [find?, hk] at hNew
  have hOld := i.positions_iff t k
  have hSize : i.strings[i.strings.size]? = none := by simp
  rw [Std.TreeMap.getElem?_insert, Array.getElem?_push]
  grind [size]

/-- The name of a string, which is a new one if the string has not been seen. -/
def intern (i : Interner) (s : String) : Name × Interner :=
  match hFind : i.find? s with
  | some name => (name, i)
  | none => (⟨i.size⟩, ⟨i.strings.push s, i.positions.insert s i.size, i.positions_iff_push hFind⟩)

/-- `intern` within the capacity: a new string is refused once every index is taken. -/
def tryIntern (i : Interner) (s : String) : Except InternError (Name × Interner) :=
  if (i.find? s).isNone ∧ capacity ≤ i.size then .error (.overflow i.size) else .ok (i.intern s)

/-- Intern strings from left to right. -/
def internAll (i : Interner) : List String → List Name × Interner
  | [] => ([], i)
  | s :: rest =>
    let (name, i) := i.intern s
    let (names, i) := i.internAll rest
    (name :: names, i)

/-- The text of a name, empty for a name that this interner never gave. -/
def lookup (i : Interner) (n : Name) : String := (i.strings[n.index]?).getD ""

end Interner

def InternError.message : InternError → String
  | .overflow count =>
    s!"interner exceeded capacity: {count} strings, max is {Interner.capacity - 1}"

end ArrowLisp
