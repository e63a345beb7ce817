import ArrowLisp.Json.Numeral

/-!
JSON text as tokens. A text is read one character at a time; what has been read of a token that is
not complete yet is the state between two characters. The syntax is the strict one of the standard,
as it is assumed of every reader: four blanks, no comments, escapes only of the listed kinds, and
surrogates only in pairs.
-/

namespace ArrowLisp.Json

/-- What makes a text no JSON. -/
inductive SyntaxError where
  | unexpectedCharacter
  | unknownWord
  | invalidNumber
  | numberOutOfRange
  | controlCharacter
  | invalidEscape
  | loneSurrogate
  | unexpectedEnd
  | unexpectedToken
  | nestingTooDeep
  | trailingToken
deriving DecidableEq, Repr

/-- The message of an error. The words are those of this reader and tell no line and no column.
Other readers have other words, and nothing depends on them. -/
def SyntaxError.message : SyntaxError → String
  | .unexpectedCharacter => "unexpected character"
  | .unknownWord => "unknown word"
  | .invalidNumber => "invalid number"
  | .numberOutOfRange => "number out of range"
  | .controlCharacter => "control character in a string"
  | .invalidEscape => "invalid escape"
  | .loneSurrogate => "lone surrogate in an escape"
  | .unexpectedEnd => "unexpected end of input"
  | .unexpectedToken => "unexpected token"
  | .nestingTooDeep => "nesting too deep"
  | .trailingToken => "trailing characters"

/-- A token. Brackets enclose arrays and braces objects. -/
inductive Token where
  | openBracket
  | closeBracket
  | openBrace
  | closeBrace
  | comma
  | colon
  /-- A string, or a value that is written as a word or a number. -/
  | scalar (j : Json)

namespace Token

/-- The part of a token that has been read. Characters are kept in reverse. -/
inductive Partial where
  /-- Nothing: the last token is complete. -/
  | nothing
  | word (letters : List Char)
  | numeral (chars : List Char)
  | string (content : List Char)
  /-- A string up to a backslash. -/
  | escape (content : List Char)
  /-- A string up to some digits of a `\u` escape. -/
  | unicode (content : List Char) (digits value : Nat)
  /-- A string up to the first half of a surrogate pair, after which a backslash has to come. -/
  | high (content : List Char) (first : Nat)
  /-- The same up to the backslash. -/
  | highEscape (content : List Char) (first : Nat)
  /-- The same up to some digits of the second half. -/
  | low (content : List Char) (first digits value : Nat)

def ofWord (letters : List Char) : Except SyntaxError Token :=
  if letters = "null".toList then .ok (.scalar .null)
  else if letters = "true".toList then .ok (.scalar (.bool true))
  else if letters = "false".toList then .ok (.scalar (.bool false))
  else .error .unknownWord

def ofNumeral (chars : List Char) : Except SyntaxError Token :=
  match Numeral.ofChars? chars with
  | none => .error .invalidNumber
  | some n =>
    match n.toJson? with
    | none => .error .numberOutOfRange
    | some j => .ok (.scalar j)

/-- Whether a character can stand in a number literal. -/
def isNumeralChar (c : Char) : Bool := c.isDigit || "+-.eE".toList.contains c

/-- Whether a character may stand between tokens. -/
def isBlank (c : Char) : Bool := " \t\n\r".toList.contains c

/-- The character that a one-letter escape stands for. -/
def simpleEscape? : Char → Option Char
  | '"' => some '"'
  | '\\' => some '\\'
  | '/' => some '/'
  | 'b' => some '\x08'
  | 'f' => some '\x0c'
  | 'n' => some '\n'
  | 'r' => some '\r'
  | 't' => some '\t'
  | _ => none

def hexValue? (c : Char) : Option Nat :=
  if c.isDigit then some (c.toNat - '0'.toNat)
  else if 'a' ≤ c ∧ c ≤ 'f' then some (c.toNat - 'a'.toNat + 10)
  else if 'A' ≤ c ∧ c ≤ 'F' then some (c.toNat - 'A'.toNat + 10)
  else none

def isHigh (unit : Nat) : Bool := 0xd800 ≤ unit && unit < 0xdc00

def isLow (unit : Nat) : Bool := 0xdc00 ≤ unit && unit < 0xe000

def ofPair (first second : Nat) : Char :=
  Char.ofNat (0x10000 + (first - 0xd800) * 0x400 + (second - 0xdc00))

/-- Begin a token with a character. Punctuation is a whole token. -/
def start (c : Char) : Except SyntaxError (Partial × List Token) :=
  if isBlank c then .ok (.nothing, [])
  else if c = '[' then .ok (.nothing, [.openBracket])
  else if c = ']' then .ok (.nothing, [.closeBracket])
  else if c = '\x7b' then .ok (.nothing, [.openBrace])
  else if c = '\x7d' then .ok (.nothing, [.closeBrace])
  else if c = ',' then .ok (.nothing, [.comma])
  else if c = ':' then .ok (.nothing, [.colon])
  else if c = '"' then .ok (.string [], [])
  else if c = '-' || c.isDigit then .ok (.numeral [c], [])
  else if c.isAlpha then .ok (.word [c], [])
  else .error .unexpectedCharacter

/-- Complete a token at a character that is not part of it, and begin the next one. -/
def startAfter (token : Except SyntaxError Token) (c : Char) :
    Except SyntaxError (Partial × List Token) := do
  let token ← token
  let (state, more) ← start c
  return (state, token :: more)

def stringStep (content : List Char) (c : Char) : Except SyntaxError (Partial × List Token) :=
  if c = '"' then .ok (.nothing, [.scalar (.string (String.ofList content.reverse))])
  else if c = '\\' then .ok (.escape content, [])
  else if c.toNat < 0x20 then .error .controlCharacter
  else .ok (.string (c :: content), [])

/-- Read a character: what is then unfinished, and the tokens that have become complete. -/
def step (state : Partial) (c : Char) : Except SyntaxError (Partial × List Token) :=
  match state with
  | .nothing => start c
  | .word letters =>
    if c.isAlpha then .ok (.word (c :: letters), []) else startAfter (ofWord letters.reverse) c
  | .numeral chars =>
    if isNumeralChar c then .ok (.numeral (c :: chars), [])
    else startAfter (ofNumeral chars.reverse) c
  | .string content => stringStep content c
  | .escape content =>
    if c = 'u' then .ok (.unicode content 0 0, [])
    else
      match simpleEscape? c with
      | some c => .ok (.string (c :: content), [])
      | none => .error .invalidEscape
  | .unicode content digits value =>
    match hexValue? c with
    | none => .error .invalidEscape
    | some digit =>
      let value := 16 * value + digit
      if digits < 3 then .ok (.unicode content (digits + 1) value, [])
      else if isHigh value then .ok (.high content value, [])
      else if isLow value then .error .loneSurrogate
      else .ok (.string (Char.ofNat value :: content), [])
  | .high content first =>
    if c = '\\' then .ok (.highEscape content first, []) else .error .loneSurrogate
  | .highEscape content first =>
    if c = 'u' then .ok (.low content first 0 0, []) else .error .loneSurrogate
  | .low content first digits value =>
    match hexValue? c with
    | none => .error .invalidEscape
    | some digit =>
      let value := 16 * value + digit
      if digits < 3 then .ok (.low content first (digits + 1) value, [])
      else if isLow value then .ok (.string (ofPair first value :: content), [])
      else .error .loneSurrogate

/-- Complete what is unfinished at the end of a text. -/
def finish : Partial → Except SyntaxError (List Token)
  | .nothing => .ok []
  | .word letters => (ofWord letters.reverse).map ([·])
  | .numeral chars => (ofNumeral chars.reverse).map ([·])
  | _ => .error .unexpectedEnd

/-- The tokens of a text from a state on, after the given ones, which are in reverse. -/
def ofChars (state : Partial) (tokens : List Token) :
    List Char → Except SyntaxError (List Token)
  | [] => (finish state).map (tokens.reverse ++ ·)
  | c :: rest =>
    match step state c with
    | .error e => .error e
    | .ok (state, more) => ofChars state (more.reverse ++ tokens) rest

def ofText (text : String) : Except SyntaxError (List Token) := ofChars .nothing [] text.toList

end Token

end ArrowLisp.Json
