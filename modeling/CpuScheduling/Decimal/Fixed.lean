import CpuScheduling.Decimal.Dyadic

/-!
Doubles with two places behind the point.  The exact value is rounded to the
nearest hundredth, and a tie goes to the even one.
-/

namespace CpuScheduling.Decimal

def hundredths (number : Dyadic) : Nat :=
  roundQuotient ((number.significand * 100) <<< number.exponent.toNat)
    (1 <<< (-number.exponent).toNat)

def fixed (value : Float) : String :=
  if value.isNaN then "NaN"
  else if value.isInf then "inf"
  else
    let count := hundredths (.ofFloat value)
    let places := toString (count % 100)
    toString (count / 100) ++ "." ++ (if places.length < 2 then "0" ++ places else places)

end CpuScheduling.Decimal
