import CpuScheduling.Json.Failure

/-!
JSON numbers.  A number without sign, fraction and exponent that fits into a
word of 64 bits is a natural number.  Every other number is a double, whose value
nothing here needs; it only has to be finite.

Whether it is finite is decided as doubles are computed: the digits are taken as
one whole number as far as a word holds them, and that number is scaled by a
power of ten.
-/

namespace CpuScheduling.Json

structure Mode where
  /-- Bytes come one at a time: where a number ends is known only from the byte
  behind it, and a problem with its size is seen on that byte. -/
  stream : Bool := false
  /-- Values are wanted: strings have to be Unicode and numbers finite. -/
  wanted : Bool := true
  deriving DecidableEq

inductive Number where
  | natural (value : Nat)
  | other
  deriving DecidableEq

def isDigit (letter : UInt8) : Bool :=
  byte '0' ≤ letter && letter ≤ byte '9'

def digitValue (letter : UInt8) : Nat :=
  letter.toNat - (byte '0').toNat

def digits (text : Bytes) : List Nat × Bytes :=
  ((text.takeWhile isDigit).map digitValue, text.dropWhile isDigit)

/-- The whole number of some more digits, and how many of them are left when the
next one would not fit under the limit. -/
def accumulate (limit : Nat) : Nat → List Nat → Nat × Nat
  | value, [] => (value, 0)
  | value, digit :: rest =>
      if value * 10 + digit < limit then accumulate limit (value * 10 + digit) rest
      else (value, rest.length + 1)

def isFiniteScaled (significand : Nat) (exponent : Int) : Bool :=
  significand == 0 || exponent < 0 ||
    exponent ≤ 308 &&
      !(significand.toUInt64.toFloat * OfScientific.ofScientific 1 false exponent.toNat : Float).isInf

def scaled (mode : Mode) (significand : Nat) (exponent : Int) (rest : Bytes) :
    Except Stop (Number × Bytes) :=
  if mode.wanted && !isFiniteScaled significand exponent then
    .error <| if mode.stream then .on .numberOutOfRange rest else .after .numberOutOfRange rest
  else .ok (.other, rest)

abbrev exponentSize : Nat := 0x80000000

/-- The exponent behind its letter.  One too large for its word ends the number at
that digit, unless the number is too small to tell from zero. -/
def exponentPart (mode : Mode) (significand : Nat) (exponent : Int) (text : Bytes) :
    Except Stop (Number × Bytes) :=
  let (negative, unsigned) : Bool × Bytes :=
    match text with
    | letter :: rest =>
        if letter = byte '-' then (true, rest)
        else if letter = byte '+' then (false, rest)
        else (false, text)
    | [] => (false, text)
  match unsigned with
  | [] => .error (.after .endInValue [])
  | letter :: rest =>
      if isDigit letter then
        let (more, rest) := digits rest
        let (value, excess) := accumulate exponentSize (digitValue letter) more
        if excess = 0 then
          scaled mode significand (if negative then exponent - value else exponent + value) rest
        else if mode.wanted && significand ≠ 0 && !negative then
          .error ⟨.numberOutOfRange, rest.length + (excess - 1)⟩
        else .ok (.other, rest)
      else .error (.after .invalidNumber rest)

def exponentOrEnd (mode : Mode) (significand : Nat) (exponent : Int) (text : Bytes) :
    Except Stop (Number × Bytes) :=
  match text with
  | letter :: rest =>
      if letter = byte 'e' || letter = byte 'E' then exponentPart mode significand exponent rest
      else scaled mode significand exponent text
  | [] => scaled mode significand exponent text

def fractionPart (mode : Mode) (significand excess : Nat) (text : Bytes) :
    Except Stop (Number × Bytes) :=
  let (fraction, rest) := digits text
  if fraction.isEmpty then
    .error (.on (if rest.isEmpty then .endInValue else .invalidNumber) rest)
  else
    let (significand, unused) := accumulate UInt64.size significand fraction
    exponentOrEnd mode significand (excess - (fraction.length - unused : Nat)) rest

def wholePart : Bytes → Except Stop (List Nat × Bytes)
  | [] => .error (.after .endInValue [])
  | letter :: rest =>
      if letter = byte '0' then
        match rest with
        | next :: _ =>
            if isDigit next then .error (.on .invalidNumber rest) else .ok ([0], rest)
        | [] => .ok ([0], rest)
      else if isDigit letter then
        let (more, rest) := digits rest
        .ok (digitValue letter :: more, rest)
      else .error (.after .invalidNumber rest)

def number (mode : Mode) (negative : Bool) (text : Bytes) : Except Stop (Number × Bytes) := do
  let (whole, rest) ← wholePart text
  let (significand, excess) := accumulate UInt64.size 0 whole
  match rest with
  | letter :: more =>
      if letter = byte '.' then fractionPart mode significand excess more
      else if letter = byte 'e' || letter = byte 'E' then
        exponentPart mode significand excess more
      else if excess = 0 then return (if negative then .other else .natural significand, rest)
      else scaled mode significand excess rest
  | [] =>
      if excess = 0 then return (if negative then .other else .natural significand, rest)
      else scaled mode significand excess rest

end CpuScheduling.Json
