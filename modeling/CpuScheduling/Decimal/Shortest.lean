import CpuScheduling.Decimal.Dyadic

/-!
The fewest digits that read back as a double.

All reals in an interval around a double are read as that double; the ends
belong to it where its significand is even.  The digits come from the coarsest
decimal grid with a point in the interval, which is one of the two neighbours of
the double on that grid; of two points the nearer is taken, and the even one if
they are equally near.
-/

namespace CpuScheduling.Decimal

/-- The number `digits * 10 ^ exponent`. -/
structure Scaled where
  digits : Nat
  exponent : Int
  deriving DecidableEq

def Scaled.compareWith (decimal : Scaled) (count : Nat) (exponent : Int) : Ordering :=
  compare ((decimal.digits * Nat.pow 10 decimal.exponent.toNat) <<< (-exponent).toNat)
    ((count * Nat.pow 10 (-decimal.exponent).toNat) <<< exponent.toNat)

def Dyadic.isReadFrom (number : Dyadic) (decimal : Scaled) : Bool :=
  let low := 4 * number.significand - if number.narrowBelow then 1 else 2
  let high := 4 * number.significand + 2
  let closed := number.significand % 2 = 0
  let lower := decimal.compareWith low (number.exponent - 2)
  let upper := decimal.compareWith high (number.exponent - 2)
  (lower = .gt || closed && lower = .eq) && (upper = .lt || closed && upper = .eq)

/-- The point of a grid that is read as the given double and nearest to it. -/
def Dyadic.pointOn? (number : Dyadic) (exponent : Int) : Option Scaled :=
  let numerator := (number.significand * Nat.pow 10 (-exponent).toNat) <<< number.exponent.toNat
  let denominator := Nat.pow 10 exponent.toNat <<< (-number.exponent).toNat
  let nearest : Scaled := ⟨roundQuotient numerator denominator, exponent⟩
  if number.isReadFrom nearest then some nearest
  else
    [numerator / denominator, numerator / denominator + 1].map (⟨·, exponent⟩)
      |>.find? number.isReadFrom

def Dyadic.firstPoint (number : Dyadic) (exponent : Int) : Nat → Scaled
  | 0 => ⟨0, exponent⟩
  | grids + 1 =>
      match number.pointOn? exponent with
      | some point => point
      | none => number.firstPoint (exponent - 1) grids

/-- The fewest digits of a positive number.  The first grid is too coarse for
any digit, and a double needs no more than seventeen of them. -/
def Dyadic.shortest (number : Dyadic) : Scaled :=
  let magnitude : Int := number.significand.log2 + number.exponent
  number.firstPoint (magnitude * 3 / 10 + 2) 24

/-- The point stands inside or around the digits where it is at most sixteen
places behind the first digit or five places in front of it; other numbers are
written with an exponent. -/
def Scaled.render (decimal : Scaled) : String :=
  let digits := toString decimal.digits
  let length := digits.length
  let point : Int := length + decimal.exponent
  let zeros (count : Int) : String := String.ofList (List.replicate count.toNat '0')
  if 0 ≤ decimal.exponent ∧ point ≤ 16 then
    digits ++ zeros decimal.exponent ++ ".0"
  else if 0 < point ∧ point ≤ 16 then
    String.ofList (digits.toList.take point.toNat) ++ "." ++
      String.ofList (digits.toList.drop point.toNat)
  else if -5 < point ∧ point ≤ 0 then
    "0." ++ zeros (-point) ++ digits
  else
    let rest := String.ofList (digits.toList.drop 1)
    String.ofList (digits.toList.take 1) ++ (if rest.isEmpty then "" else "." ++ rest) ++
      "e" ++ toString (point - 1)

def shortest (value : Float) : String :=
  if value.isNaN || value.isInf then "null"
  else if value == 0.0 then "0.0"
  else (Dyadic.ofFloat value).shortest.render

end CpuScheduling.Decimal
