/-!
JSON values. Integers that fit into 64 bits are kept apart from other numbers, and the members of
an object are sorted by name, each name once.
-/

namespace ArrowLisp

/-- A JSON value. -/
inductive Json where
  | null
  | bool (b : Bool)
  | int (i : Int)
  | double (x : Float)
  | string (s : String)
  | array (items : List Json)
  | object (members : List (String × Json))

namespace Json

instance : Inhabited Json := ⟨.null⟩

/-- Add a member to sorted members, in place of one of the same name. The order of names is that
of their code points, which is also that of their UTF-8 bytes. -/
def insertMember (name : String) (value : Json) : List (String × Json) → List (String × Json)
  | [] => [(name, value)]
  | (other, held) :: rest =>
    if name = other then (name, value) :: rest
    else if name < other then (name, value) :: (other, held) :: rest
    else (other, held) :: insertMember name value rest

end Json

end ArrowLisp
