/-!
Doubles from decimal text: an optional sign and then a name of infinity or of
not-a-number in any case, or digits with at most one point among or around them
and maybe an exponent.  The value is rounded to the nearest double.
-/

namespace CpuScheduling.Decimal

def sign : List Char → Bool × List Char
  | '-' :: rest => (true, rest)
  | '+' :: rest => (false, rest)
  | text => (false, text)

def digitsValue (digits : List Char) : Nat :=
  digits.foldl (fun value digit => value * 10 + (digit.toNat - '0'.toNat)) 0

def exponent? : List Char → Option Int
  | [] => some 0
  | letter :: rest =>
      let (negative, digits) := sign rest
      if letter.toLower = 'e' && !digits.isEmpty && digits.all Char.isDigit then
        some (if negative then -digitsValue digits else digitsValue digits)
      else none

/-- The double nearest to `significand * 10 ^ exponent`.  Numbers far outside the
range of doubles are settled by their size alone. -/
def nearest (significand : Nat) (exponent : Int) : Float :=
  let size : Int := (toString significand).length + exponent
  if significand = 0 ∨ size < -400 then 0.0
  else if 400 < size then 1.0 / 0.0
  else if exponent < 0 then OfScientific.ofScientific significand true (-exponent).toNat
  else OfScientific.ofScientific significand false exponent.toNat

def unsigned? (text : List Char) : Option Float :=
  let lower := String.ofList (text.map Char.toLower)
  if lower = "inf" ∨ lower = "infinity" then some (1.0 / 0.0)
  else if lower = "nan" then some (0.0 / 0.0)
  else do
    let whole := text.takeWhile Char.isDigit
    let (fraction, rest) :=
      match text.dropWhile Char.isDigit with
      | '.' :: rest => (rest.takeWhile Char.isDigit, rest.dropWhile Char.isDigit)
      | rest => ([], rest)
    guard !(whole ++ fraction).isEmpty
    let exponent ← exponent? rest
    return nearest (digitsValue (whole ++ fraction)) (exponent - fraction.length)

def read? (text : String) : Option Float :=
  let (negative, rest) := sign text.toList
  (unsigned? rest).map fun value => if negative then -value else value

end CpuScheduling.Decimal
