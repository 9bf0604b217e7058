import CpuScheduling.Json.Failure

/-!
The text of JSON strings: escapes, UTF-8, and the bytes that a string in quotes
stands for.

A text that is wanted has to be Unicode, so its surrogates come in pairs and its
bytes are UTF-8.  A text that is only passed over need not be.
-/

namespace CpuScheduling.Json

def isContinuation (letter : UInt8) : Bool :=
  0x80 ≤ letter && letter ≤ 0xBF

/-- The values that the second byte may have behind a first byte of two, three
or four; nothing where the byte starts no such character. -/
def secondRange? (first : UInt8) : Option (Nat × UInt8 × UInt8) :=
  if 0xC2 ≤ first && first ≤ 0xDF then some (2, 0x80, 0xBF)
  else if first = 0xE0 then some (3, 0xA0, 0xBF)
  else if first = 0xED then some (3, 0x80, 0x9F)
  else if 0xE1 ≤ first && first ≤ 0xEF then some (3, 0x80, 0xBF)
  else if first = 0xF0 then some (4, 0x90, 0xBF)
  else if 0xF1 ≤ first && first ≤ 0xF3 then some (4, 0x80, 0xBF)
  else if first = 0xF4 then some (4, 0x80, 0x8F)
  else none

/-- The bytes of a text from the first one on where it stops being UTF-8; nothing
where all of it is. -/
def notUnicodeFrom : Bytes → Bytes
  | [] => []
  | first :: rest =>
      if first < 0x80 then notUnicodeFrom rest
      else
        match secondRange? first, rest with
        | some (2, low, high), second :: rest =>
            if low ≤ second && second ≤ high then notUnicodeFrom rest
            else first :: second :: rest
        | some (3, low, high), second :: third :: rest =>
            if low ≤ second && second ≤ high && isContinuation third then notUnicodeFrom rest
            else first :: second :: third :: rest
        | some (4, low, high), second :: third :: fourth :: rest =>
            if low ≤ second && second ≤ high && isContinuation third && isContinuation fourth then
              notUnicodeFrom rest
            else first :: second :: third :: fourth :: rest
        | _, rest => first :: rest

def utf8 (code : Nat) : Bytes :=
  let tail (shift : Nat) : UInt8 := UInt8.ofNat (0x80 + (code >>> shift) % 0x40)
  if code < 0x80 then [UInt8.ofNat code]
  else if code < 0x800 then [UInt8.ofNat (0xC0 + code >>> 6), tail 0]
  else if code < 0x10000 then [UInt8.ofNat (0xE0 + code >>> 12), tail 6, tail 0]
  else [UInt8.ofNat (0xF0 + code >>> 18), tail 12, tail 6, tail 0]

def hexDigit? (letter : UInt8) : Option Nat :=
  if byte '0' ≤ letter && letter ≤ byte '9' then some (letter.toNat - (byte '0').toNat)
  else if byte 'a' ≤ letter && letter ≤ byte 'f' then some (letter.toNat - (byte 'a').toNat + 10)
  else if byte 'A' ≤ letter && letter ≤ byte 'F' then some (letter.toNat - (byte 'A').toNat + 10)
  else none

def hexNumber : Bytes → Except Stop (Nat × Bytes)
  | first :: second :: third :: fourth :: rest =>
      match hexDigit? first, hexDigit? second, hexDigit? third, hexDigit? fourth with
      | some a, some b, some c, some d => .ok (((a * 16 + b) * 16 + c) * 16 + d, rest)
      | _, _, _, _ => .error (.after .invalidEscape rest)
  | _ => .error (.after .endInString [])

def surrogateMark (letter : UInt8) : Bytes → Except Stop Bytes
  | [] => .error (.after .endInString [])
  | next :: rest =>
      if next = letter then .ok rest else .error (.after .endOfHexEscape rest)

/-- What an escape of four hexadecimal digits stands for.  Two surrogates make
one character. -/
def unicodeEscape (text : Bytes) : Except Stop (Bytes × Bytes) := do
  let (first, rest) ← hexNumber text
  if 0xDC00 ≤ first ∧ first < 0xE000 then
    .error (.after .loneSurrogate rest)
  else if 0xD800 ≤ first ∧ first < 0xDC00 then
    let rest ← surrogateMark (byte '\\') rest
    let rest ← surrogateMark (byte 'u') rest
    let (second, rest) ← hexNumber rest
    if 0xDC00 ≤ second ∧ second < 0xE000 then
      return (utf8 (0x10000 + (first - 0xD800) * 0x400 + (second - 0xDC00)), rest)
    else
      .error (.after .loneSurrogate rest)
  else
    return (utf8 first, rest)

def plainEscape? (letter : UInt8) : Option UInt8 :=
  if letter = byte '"' || letter = byte '\\' || letter = byte '/' then some letter
  else if letter = byte 'b' then some 8
  else if letter = byte 'f' then some 12
  else if letter = byte 'n' then some 10
  else if letter = byte 'r' then some 13
  else if letter = byte 't' then some 9
  else none

def escape (wanted : Bool) : Bytes → Except Stop (Bytes × Bytes)
  | [] => .error (.after .endInString [])
  | letter :: rest =>
      match plainEscape? letter with
      | some plain => .ok ([plain], rest)
      | none =>
          if letter = byte 'u' then
            if wanted then unicodeEscape rest
            else do
              let (_, rest) ← hexNumber rest
              return ([], rest)
          else .error (.after .invalidEscape rest)

/-- The text up to the closing quote.  Each round reads at least one byte, so
the length of the text is fuel enough. -/
def quoted (wanted : Bool) : Nat → Bytes → Except Stop (Bytes × Bytes)
  | 0, rest => .error (.after .endInString rest)
  | _ + 1, [] => .error (.after .endInString [])
  | fuel + 1, letter :: rest =>
      if letter = byte '"' then .ok ([], rest)
      else if letter = byte '\\' then do
        let (piece, rest) ← escape wanted rest
        let (more, rest) ← quoted wanted fuel rest
        return (piece ++ more, rest)
      else if letter < 0x20 then .error (.after .controlCharacter rest)
      else do
        let (more, rest) ← quoted wanted fuel rest
        return (letter :: more, rest)

def string (wanted : Bool) (text : Bytes) : Except Stop (Bytes × Bytes) := do
  let (content, rest) ← quoted wanted text.length text
  match wanted, notUnicodeFrom content with
  | true, invalid@(_ :: _) => .error (.after (.notUnicode invalid.length) rest)
  | _, _ => return (content, rest)

end CpuScheduling.Json
