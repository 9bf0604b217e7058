import CpuScheduling.Json.Number
import CpuScheduling.Json.Text

/-!
JSON values and how they are read.

An object keeps its members in the order of the text, each key with its value,
also where a key comes twice.  Reading stops at the first problem; a value is
read to its last byte and what follows is left to the caller.
-/

namespace CpuScheduling.Json

inductive Value where
  | null
  | bool (value : Bool)
  | natural (value : Nat)
  /-- A number that is negative, has a fraction or an exponent, or is too large
  for a word. -/
  | otherNumber
  | string (content : Bytes)
  | array (items : List Value)
  | object (members : List (Bytes × Value))

abbrev maxDepth : Nat := 127

def isBlank (letter : UInt8) : Bool :=
  letter = byte ' ' || letter = byte '\n' || letter = byte '\r' || letter = byte '\t'

def skipBlank (text : Bytes) : Bytes :=
  text.dropWhile isBlank

def literal (value : Value) : Bytes → Bytes → Except Stop (Value × Bytes)
  | [], rest => .ok (value, rest)
  | _ :: _, [] => .error (.after .endInValue [])
  | letter :: letters, next :: rest =>
      if next = letter then literal value letters rest
      else .error (.after .expectedIdent rest)

/-- The items behind the first one, up to the closing bracket.  Each round reads
at least one byte, so the length of the text is fuel enough. -/
def moreItems (item : Bytes → Except Stop (Value × Bytes)) :
    Nat → Bytes → Except Stop (List Value × Bytes)
  | 0, text => .error (.on .endInList text)
  | fuel + 1, text =>
      match skipBlank text with
      | [] => .error (.on .endInList [])
      | letter :: rest =>
          if letter = byte ']' then .ok ([], rest)
          else if letter = byte ',' then
            match skipBlank rest with
            | [] => .error (.on .endInValue [])
            | next :: behind =>
                if next = byte ']' then .error (.on .trailingComma (next :: behind))
                else do
                  let (value, rest) ← item (next :: behind)
                  let (values, rest) ← moreItems item fuel rest
                  return (value :: values, rest)
          else .error (.on .expectedListCommaOrEnd (letter :: rest))

def items (item : Bytes → Except Stop (Value × Bytes)) (text : Bytes) :
    Except Stop (List Value × Bytes) :=
  match skipBlank text with
  | [] => .error (.on .endInList [])
  | letter :: rest =>
      if letter = byte ']' then .ok ([], rest)
      else do
        let (value, rest) ← item (letter :: rest)
        let (values, rest) ← moreItems item rest.length rest
        return (value :: values, rest)

def member (wanted : Bool) (item : Bytes → Bytes → Except Stop (Value × Bytes))
    (text : Bytes) : Except Stop ((Bytes × Value) × Bytes) := do
  match text with
  | [] => .error (.on .endInValue [])
  | letter :: rest =>
      if letter = byte '"' then
        let (key, rest) ← string wanted rest
        match skipBlank rest with
        | [] => .error (.on .endInObject [])
        | next :: behind =>
            if next = byte ':' then
              let (value, rest) ← item key behind
              return ((key, value), rest)
            else .error (.on .expectedColon (next :: behind))
      else .error (.on .keyMustBeString text)

def moreMembers (wanted : Bool) (item : Bytes → Bytes → Except Stop (Value × Bytes)) :
    Nat → Bytes → Except Stop (List (Bytes × Value) × Bytes)
  | 0, text => .error (.on .endInObject text)
  | fuel + 1, text =>
      match skipBlank text with
      | [] => .error (.on .endInObject [])
      | letter :: rest =>
          if letter = byte '}' then .ok ([], rest)
          else if letter = byte ',' then
            match skipBlank rest with
            | [] => .error (.on .endInValue [])
            | next :: behind =>
                if next = byte '}' then .error (.on .trailingComma (next :: behind))
                else do
                  let (entry, rest) ← member wanted item (next :: behind)
                  let (entries, rest) ← moreMembers wanted item fuel rest
                  return (entry :: entries, rest)
          else .error (.on .expectedObjectCommaOrEnd (letter :: rest))

def members (wanted : Bool) (item : Bytes → Bytes → Except Stop (Value × Bytes))
    (text : Bytes) : Except Stop (List (Bytes × Value) × Bytes) :=
  match skipBlank text with
  | [] => .error (.on .endInObject [])
  | letter :: rest =>
      if letter = byte '}' then .ok ([], rest)
      else do
        let (entry, rest) ← member wanted item (letter :: rest)
        let (entries, rest) ← moreMembers wanted item rest.length rest
        return (entry :: entries, rest)

def scalar (mode : Mode) (letter : UInt8) (rest : Bytes) : Except Stop (Value × Bytes) :=
  let numeric (result : Except Stop (Number × Bytes)) : Except Stop (Value × Bytes) :=
    result.map fun (number, rest) =>
      match number with
      | .natural value => (.natural value, rest)
      | .other => (.otherNumber, rest)
  if letter = byte 'n' then literal .null (ascii "ull") rest
  else if letter = byte 't' then literal (.bool true) (ascii "rue") rest
  else if letter = byte 'f' then literal (.bool false) (ascii "alse") rest
  else if letter = byte '"' then
    (string mode.wanted rest).map fun (content, rest) => (.string content, rest)
  else if letter = byte '-' then numeric (number mode true rest)
  else if isDigit letter then numeric (number mode false (letter :: rest))
  else .error (.on .expectedValue (letter :: rest))

/-- The value in front of a text, with at most `depth` arrays and objects around
one another. -/
def value (mode : Mode) : Nat → Bytes → Except Stop (Value × Bytes)
  | depth, text =>
      match skipBlank text with
      | [] => .error (.on .endInValue [])
      | letter :: rest =>
          if letter = byte '[' then
            match depth with
            | 0 => .error (.after .nestedTooDeep rest)
            | depth + 1 =>
                (items (value mode depth) rest).map fun (values, rest) => (.array values, rest)
          else if letter = byte '{' then
            match depth with
            | 0 => .error (.after .nestedTooDeep rest)
            | depth + 1 =>
                (members mode.wanted (fun _ => value mode depth) rest).map
                  fun (entries, rest) => (.object entries, rest)
          else scalar mode letter rest

def finish (text : Bytes) : Except Stop Unit :=
  match skipBlank text with
  | [] => .ok ()
  | letter :: rest => .error (.on .trailingCharacters (letter :: rest))

end CpuScheduling.Json
