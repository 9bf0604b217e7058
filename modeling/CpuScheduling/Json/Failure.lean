/-!
Why a text is not the JSON that was wanted, and where.

A position is a line, counted from one, and the number of bytes since the last
line feed.  While a text is read only the number of bytes that are left is known;
`Failure.of` turns it into a position.
-/

namespace CpuScheduling.Json

abbrev Bytes := List UInt8

def byte (letter : Char) : UInt8 :=
  letter.toNat.toUInt8

def ascii (text : String) : Bytes :=
  text.toList.map byte

inductive Problem where
  | endInValue
  | endInList
  | endInObject
  | endInString
  | expectedValue
  | expectedIdent
  | expectedListCommaOrEnd
  | expectedObjectCommaOrEnd
  | expectedColon
  | keyMustBeString
  | trailingComma
  | trailingCharacters
  | nestedTooDeep
  | invalidNumber
  | numberOutOfRange
  | controlCharacter
  | invalidEscape
  | loneSurrogate
  | endOfHexEscape
  /-- The text of a string is not UTF-8 from its last `back` bytes on. -/
  | notUnicode (back : Nat)
  deriving DecidableEq

def Problem.message : Problem → String
  | endInValue => "EOF while parsing a value"
  | endInList => "EOF while parsing a list"
  | endInObject => "EOF while parsing an object"
  | endInString => "EOF while parsing a string"
  | expectedValue => "expected value"
  | expectedIdent => "expected ident"
  | expectedListCommaOrEnd => "expected `,` or `]`"
  | expectedObjectCommaOrEnd => "expected `,` or `\x7d`"
  | expectedColon => "expected `:`"
  | keyMustBeString => "key must be a string"
  | trailingComma => "trailing comma"
  | trailingCharacters => "trailing characters"
  | nestedTooDeep => "recursion limit exceeded"
  | invalidNumber => "invalid number"
  | numberOutOfRange => "number out of range"
  | controlCharacter => "control character (\\u0000-\\u001F) found while parsing a string"
  | invalidEscape => "invalid escape"
  | loneSurrogate => "lone leading surrogate in hex escape"
  | endOfHexEscape => "unexpected end of hex escape"
  | notUnicode _ => "invalid unicode code point"

/-- Where reading stops: a problem and how many bytes are left behind it. -/
structure Stop where
  problem : Problem
  left : Nat
  deriving DecidableEq

def Stop.after (problem : Problem) (rest : Bytes) : Stop :=
  ⟨problem, rest.length⟩

def Stop.on (problem : Problem) (rest : Bytes) : Stop :=
  ⟨problem, rest.length - 1⟩

structure Position where
  line : Nat
  column : Nat
  deriving DecidableEq

def Position.next (position : Position) (letter : UInt8) : Position :=
  if letter = byte '\n' then ⟨position.line + 1, 0⟩
  else ⟨position.line, position.column + 1⟩

def Position.behind (bytes : Bytes) : Position :=
  bytes.foldl Position.next ⟨1, 0⟩

structure Failure where
  problem : Problem
  position : Position
  deriving DecidableEq

def Failure.of (text : Bytes) (stop : Stop) : Failure :=
  let position := Position.behind (text.take (text.length - stop.left))
  match stop.problem with
  | .notUnicode back => ⟨stop.problem, { position with column := position.column - back }⟩
  | problem => ⟨problem, position⟩

def Failure.message (failure : Failure) : String :=
  s!"{failure.problem.message} at line {failure.position.line} column {failure.position.column}"

end CpuScheduling.Json
