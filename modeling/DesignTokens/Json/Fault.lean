/-!
What can be wrong with a JSON text, and where.

While reading, a fault only says how many bytes of the text lie behind it; its line and column
follow from that and the whole text.
-/

namespace DesignTokens.Json

/-- Why a text cannot be read. -/
inductive Cause where
  | endOfValue
  | endOfString
  | endOfList
  | endOfObject
  | expectedWord
  | expectedValue
  | expectedColon
  | expectedListEnd
  | expectedObjectEnd
  | invalidNumber
  | numberOutOfRange
  | controlCharacter
  | invalidEscape
  | loneSurrogate
  | unfinishedPair
  | trailingComma
  | keyNotString
  | tooDeep
  | trailingCharacters
  | wrongType (found expected : String)
  | wrongValue (found expected : String)
  | wrongLength (length : Nat) (expected : String)
  | missingField (name : String)
  | duplicateField (name : String)
deriving DecidableEq, Repr

def Cause.message : Cause → String
  | endOfValue => "EOF while parsing a value"
  | endOfString => "EOF while parsing a string"
  | endOfList => "EOF while parsing a list"
  | endOfObject => "EOF while parsing an object"
  | expectedWord => "expected ident"
  | expectedValue => "expected value"
  | expectedColon => "expected `:`"
  | expectedListEnd => "expected `,` or `]`"
  | expectedObjectEnd => "expected `,` or `\x7d`"
  | invalidNumber => "invalid number"
  | numberOutOfRange => "number out of range"
  | controlCharacter => "control character (\\u0000-\\u001F) found while parsing a string"
  | invalidEscape => "invalid escape"
  | loneSurrogate => "lone leading surrogate in hex escape"
  | unfinishedPair => "unexpected end of hex escape"
  | trailingComma => "trailing comma"
  | keyNotString => "key must be a string"
  | tooDeep => "recursion limit exceeded"
  | trailingCharacters => "trailing characters"
  | wrongType found expected => "invalid type: " ++ found ++ ", expected " ++ expected
  | wrongValue found expected => "invalid value: " ++ found ++ ", expected " ++ expected
  | wrongLength length expected => "invalid length " ++ length.repr ++ ", expected " ++ expected
  | missingField name => "missing field `" ++ name ++ "`"
  | duplicateField name => "duplicate field `" ++ name ++ "`"

/-- The number of bytes that characters take in UTF-8. -/
def byteLength : List Char → Nat
  | [] => 0
  | c :: cs => c.utf8Size + byteLength cs

/-- A cause with the number of bytes that follow the place where it showed. -/
structure Fault where
  cause : Cause
  left : Nat
deriving DecidableEq, Repr

namespace Fault

/-- The fault shows right in front of the remaining characters. -/
def before (cause : Cause) (rest : List Char) : Fault :=
  ⟨cause, byteLength rest⟩

/-- The fault shows one byte into the remaining characters, or at the end if there are none. -/
def within (cause : Cause) (rest : List Char) : Fault :=
  ⟨cause, byteLength rest - 1⟩

end Fault

/-- Line and column of a byte offset: lines count from one, columns in bytes from the line's
start. -/
def placeOf : List Char → Nat → Nat × Nat → Nat × Nat
  | [], _, (line, column) => (line, column)
  | c :: cs, offset, (line, column) =>
    if offset < c.utf8Size then (line, column + offset)
    else if c = '\n' then placeOf cs (offset - 1) (line + 1, 0)
    else placeOf cs (offset - c.utf8Size) (line, column + c.utf8Size)

/-- A fault with its place in the text. -/
structure ReadError where
  cause : Cause
  line : Nat
  column : Nat
deriving DecidableEq, Repr

def ReadError.message (e : ReadError) : String :=
  e.cause.message ++ " at line " ++ e.line.repr ++ " column " ++ e.column.repr

/-- The place of a fault in the text that was read. -/
def Fault.inText (fault : Fault) (text : List Char) : ReadError :=
  let place := placeOf text (byteLength text - fault.left) (1, 0)
  ⟨fault.cause, place.1, place.2⟩

/-- The result of reading something off the front of a text: the thing and what follows it. -/
abbrev Reading (α : Type) := Except Fault (α × List Char)

end DesignTokens.Json
