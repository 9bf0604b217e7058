/-!
Doubles as exact numbers: a finite double that is not negative is a natural
number times a power of two.
-/

namespace CpuScheduling.Decimal

/-- The number `significand * 2 ^ exponent`. -/
structure Dyadic where
  significand : Nat
  exponent : Int
  /-- The next double below is half as far away as the next one above. -/
  narrowBelow : Bool
  deriving DecidableEq

def Dyadic.ofFloat (value : Float) : Dyadic :=
  let bits := value.toBits.toNat
  let field : Nat := (bits >>> 52) % 0x800
  let fraction : Nat := bits % 0x10000000000000
  if field = 0 then ⟨fraction, -1074, false⟩
  else ⟨0x10000000000000 + fraction, field - 1075, fraction = 0 && 1 < field⟩

/-- The quotient that is nearest; of two the even one. -/
def roundQuotient (numerator denominator : Nat) : Nat :=
  let quotient := numerator / denominator
  let rest := numerator % denominator
  if denominator < 2 * rest ∨ denominator = 2 * rest ∧ quotient % 2 = 1 then quotient + 1
  else quotient

end CpuScheduling.Decimal
