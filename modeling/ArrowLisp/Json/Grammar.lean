import ArrowLisp.Json.Token

/-!
JSON values out of tokens. The arrays and objects that are open are kept in a list, which tells
the depth of nesting and is never longer than `maxDepth`. Programs come through a reader of JSON,
which is a parameter of what uses it. The one below stands for the reader of a JSON library;
`Reader.Standard` states what is assumed of that, and is proved of this one.
-/

namespace ArrowLisp.Json

/-- The deepest nesting of arrays and objects that is read. -/
def maxDepth : Nat := 127

/-- An array or object that is open and waits for a value. Items are kept in reverse. -/
inductive OpenContainer where
  | array (items : List Json)
  | object (members : List (String × Json)) (name : String)

/-- What has been read, and with it what may come next. -/
inductive State where
  /-- A value has to come. -/
  | value (around : List OpenContainer)
  /-- An array has been opened. -/
  | arrayOpened (around : List OpenContainer)
  /-- An item is complete. -/
  | itemDone (items : List Json) (around : List OpenContainer)
  /-- An object has been opened. -/
  | objectOpened (around : List OpenContainer)
  /-- A comma in an object asks for another name. -/
  | nextName (members : List (String × Json)) (around : List OpenContainer)
  /-- A name asks for a colon. -/
  | colon (members : List (String × Json)) (name : String) (around : List OpenContainer)
  /-- A member is complete. -/
  | memberDone (members : List (String × Json)) (around : List OpenContainer)
  /-- The whole value is complete. -/
  | complete (j : Json)

namespace State

/-- Hand a complete value to the innermost open container. -/
def deliver (j : Json) : List OpenContainer → State
  | [] => .complete j
  | .array items :: around => .itemDone (j :: items) around
  | .object members name :: around => .memberDone (insertMember name j members) around

/-- Open a container, if the nesting allows it. -/
def nest (around : List OpenContainer) (opened : State) : Except SyntaxError State :=
  if around.length < maxDepth then .ok opened else .error .nestingTooDeep

def startValue (around : List OpenContainer) : Token → Except SyntaxError State
  | .scalar j => .ok (deliver j around)
  | .openBracket => nest around (.arrayOpened around)
  | .openBrace => nest around (.objectOpened around)
  | _ => .error .unexpectedToken

def step : State → Token → Except SyntaxError State
  | .value around, token => startValue around token
  | .arrayOpened around, .closeBracket => .ok (deliver (.array []) around)
  | .arrayOpened around, token => startValue (.array [] :: around) token
  | .itemDone items around, .comma => .ok (.value (.array items :: around))
  | .itemDone items around, .closeBracket => .ok (deliver (.array items.reverse) around)
  | .objectOpened around, .closeBrace => .ok (deliver (.object []) around)
  | .objectOpened around, .scalar (.string s) => .ok (.colon [] s around)
  | .nextName members around, .scalar (.string s) => .ok (.colon members s around)
  | .colon members name around, .colon => .ok (.value (.object members name :: around))
  | .memberDone members around, .comma => .ok (.nextName members around)
  | .memberDone members around, .closeBrace => .ok (deliver (.object members) around)
  | .complete _, _ => .error .trailingToken
  | _, _ => .error .unexpectedToken

end State

/-- The value that a list of tokens spells. -/
def ofTokens (tokens : List Token) : Except SyntaxError Json :=
  match tokens.foldlM State.step (.value []) with
  | .ok (.complete j) => .ok j
  | .ok _ => .error .unexpectedEnd
  | .error e => .error e

def ofText (text : String) : Except SyntaxError Json := do
  ofTokens (← Token.ofText text)

/-- Something that reads JSON: the value of a text, or a message that says why there is none. -/
def Reader := String → Except String Json

/-- The reader of programs. -/
def reader : Reader := fun text => (ofText text).mapError SyntaxError.message

end ArrowLisp.Json
