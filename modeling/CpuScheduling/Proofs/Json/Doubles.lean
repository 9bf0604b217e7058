import CpuScheduling.Json.Number
import Mathlib.Tactic.Ring

/-!
Which products of doubles are doubles again, told by the whole numbers that they stand for: one is
rounded to 53 binary digits, and it is a double as long as that stays below two to the 1024th.
-/

namespace CpuScheduling.Json

open Float.Model Float.Model.UnpackedFloat

/-- How many units a number has, to the nearest; of two that are as near it is the even one. -/
def nearestQuotient (number unit : Nat) : Nat :=
  if 2 * (number % unit) < unit ∨ 2 * (number % unit) = unit ∧ number / unit % 2 = 0 then
    number / unit
  else number / unit + 1

/-- The double next to a whole number: it has 53 binary digits, and zeros behind them. -/
def double (number : Nat) : Nat :=
  nearestQuotient number (2 ^ (number.log2 - 52)) * 2 ^ (number.log2 - 52)

section Nearest

variable {number unit factor : Nat}

theorem nearestQuotient_mul (positive : 0 < factor) :
    nearestQuotient (number * factor) (unit * factor) = nearestQuotient number unit := by
  have double : 2 * (number % unit * factor) = 2 * (number % unit) * factor := by ring
  simp only [nearestQuotient, Nat.mul_mod_mul_right, Nat.mul_div_mul_right _ _ positive, double,
    Nat.mul_lt_mul_right positive, Nat.mul_left_inj positive.ne']

theorem nearestQuotient_of_dvd (positive : 0 < unit) (divides : unit ∣ number) :
    nearestQuotient number unit = number / unit := by
  simp [nearestQuotient, Nat.mod_eq_zero_of_dvd divides, positive]

theorem div_le_nearestQuotient : number / unit ≤ nearestQuotient number unit := by
  unfold nearestQuotient
  split <;> omega

theorem nearestQuotient_le : nearestQuotient number unit ≤ number / unit + 1 := by
  unfold nearestQuotient
  split <;> omega

theorem double_of_dvd (divides : 2 ^ (number.log2 - 52) ∣ number) : double number = number := by
  rw [double, nearestQuotient_of_dvd (Nat.two_pow_pos _) divides, Nat.div_mul_cancel divides]

theorem double_of_log2_le (short : number.log2 ≤ 52) : double number = number := by
  refine double_of_dvd ?_
  rw [Nat.sub_eq_zero_of_le short]
  exact Nat.one_dvd number

theorem double_zero : double 0 = 0 := rfl

theorem log2_mul_two_pow (nonzero : number ≠ 0) (places : Nat) :
    (number * 2 ^ places).log2 = number.log2 + places := by
  have product : number * 2 ^ places ≠ 0 := Nat.mul_ne_zero nonzero (Nat.two_pow_pos places).ne'
  rw [Nat.log2_eq_iff product, Nat.add_right_comm, Nat.pow_add, Nat.pow_add]
  exact ⟨Nat.mul_le_mul_right _ (Nat.log2_self_le nonzero),
    Nat.mul_lt_mul_of_pos_right Nat.lt_log2_self (Nat.two_pow_pos places)⟩

theorem double_mul_two_pow (number places : Nat) :
    double (number * 2 ^ places) = double number * 2 ^ places := by
  by_cases zero : number = 0
  · simp [zero, double_zero]
  have length := log2_mul_two_pow zero places
  by_cases long : 52 ≤ number.log2
  · have unit : 2 ^ (number.log2 + places - 52) = 2 ^ (number.log2 - 52) * 2 ^ places := by
      rw [← Nat.pow_add]
      congr 1
      omega
    rw [double, length, unit, nearestQuotient_mul (Nat.two_pow_pos places), double, Nat.mul_assoc]
  · have divides : 2 ^ (number.log2 + places - 52) ∣ number * 2 ^ places :=
      Nat.dvd_mul_left_of_dvd (Nat.pow_dvd_pow 2 (by omega)) number
    rw [double_of_log2_le (Nat.le_of_not_le long), double_of_dvd (length ▸ divides)]

theorem two_pow_mul_unit (long : 52 ≤ number.log2) (places : Nat) :
    2 ^ (52 + places) * 2 ^ (number.log2 - 52) = 2 ^ (number.log2 + places) := by
  rw [← Nat.pow_add]
  congr 1
  omega

/-- The quotient that a double is made of has 53 binary digits, or it is the next power of two. -/
theorem nearestQuotient_bounds (long : 52 ≤ number.log2) :
    2 ^ 52 ≤ nearestQuotient number (2 ^ (number.log2 - 52)) ∧
      nearestQuotient number (2 ^ (number.log2 - 52)) ≤ 2 ^ 53 := by
  have nonzero : number ≠ 0 := by
    rintro rfl
    simp at long
  have low : 2 ^ 52 * 2 ^ (number.log2 - 52) ≤ number :=
    (two_pow_mul_unit long 0).trans_le (Nat.log2_self_le nonzero)
  have high : number < 2 ^ 53 * 2 ^ (number.log2 - 52) :=
    Nat.lt_log2_self.trans_eq (two_pow_mul_unit long 1).symm
  have quotient : number / 2 ^ (number.log2 - 52) < 2 ^ 53 :=
    (Nat.div_lt_iff_lt_mul (Nat.two_pow_pos _)).mpr high
  exact ⟨((Nat.le_div_iff_mul_le (Nat.two_pow_pos _)).mpr low).trans div_le_nearestQuotient,
    nearestQuotient_le.trans quotient⟩

theorem two_pow_le_double {places : Nat} (large : 2 ^ places ≤ number) :
    2 ^ places ≤ double number := by
  have nonzero : number ≠ 0 := (Nat.lt_of_lt_of_le (Nat.two_pow_pos places) large).ne'
  refine (Nat.pow_le_pow_right (by decide) ((Nat.le_log2 nonzero).mpr large)).trans ?_
  by_cases long : 52 ≤ number.log2
  · calc
      2 ^ number.log2 = 2 ^ 52 * 2 ^ (number.log2 - 52) := (two_pow_mul_unit long 0).symm
      _ ≤ double number := Nat.mul_le_mul_right _ (nearestQuotient_bounds long).1
  · rw [double_of_log2_le (Nat.le_of_not_le long)]
    exact Nat.log2_self_le nonzero

theorem double_pos (positive : 0 < number) : 0 < double number :=
  two_pow_le_double (show 2 ^ 0 ≤ number from positive)

theorem double_le (number : Nat) : double number ≤ 2 ^ (number.log2 + 1) := by
  by_cases long : 52 ≤ number.log2
  · calc
      double number ≤ 2 ^ 53 * 2 ^ (number.log2 - 52) :=
        Nat.mul_le_mul_right _ (nearestQuotient_bounds long).2
      _ = 2 ^ (number.log2 + 1) := two_pow_mul_unit long 1
  · rw [double_of_log2_le (Nat.le_of_not_le long)]
    exact Nat.lt_log2_self.le

end Nearest

section Rounding

variable {number unit : Nat} {extended : ExtendedMantissa}

/-- How often a unit goes into a number, with what the two bits behind it tell of the rest. -/
structure Cut (extended : ExtendedMantissa) (number unit : Nat) : Prop where
  positive : 0 < unit
  mantissa : extended.mantissa = number / unit
  roundBit : extended.roundBit = true ↔ unit ≤ 2 * (number % unit)
  stickyBit : extended.stickyBit = true ↔ 2 * (number % unit) % unit ≠ 0

namespace Cut

theorem whole (number : Nat) : Cut (.ofMantissaAndAccuracy number .exact) number 1 where
  positive := Nat.one_pos
  mantissa := (Nat.div_one number).symm
  roundBit := by simp [ExtendedMantissa.ofMantissaAndAccuracy, Nat.mod_one]
  stickyBit := by simp [ExtendedMantissa.ofMantissaAndAccuracy, Nat.mod_one]

theorem shiftRightOne (cut : Cut extended number unit) :
    Cut extended.shiftRightOne number (unit * 2) := by
  obtain ⟨positive, mantissa, roundBit, stickyBit⟩ := cut
  have small : number % unit < unit := Nat.mod_lt number positive
  have rest : number % (unit * 2) = number % unit + unit * (number / unit % 2) := Nat.mod_mul
  have twice : 2 * (number % (unit * 2)) % (unit * 2) = 2 * (number % unit) := by
    rw [rest, Nat.mul_add, show 2 * (unit * (number / unit % 2)) =
      unit * 2 * (number / unit % 2) by ring, Nat.add_mul_mod_self_left,
      Nat.mod_eq_of_lt (by omega)]
  refine ⟨by omega, ?_, ?_, ?_⟩
  · rw [ExtendedMantissa.shiftRightOne, mantissa, Nat.div_div_eq_div_mul]
  · rw [ExtendedMantissa.shiftRightOne, mantissa, rest]
    rcases Nat.mod_two_eq_zero_or_one (number / unit) with even | odd
    · simp only [even, bne_self_eq_false, Bool.false_eq_true, false_iff]
      omega
    · simp only [odd, Nat.one_ne_zero, bne_iff_ne, ne_eq, not_false_eq_true, true_iff]
      omega
  · rw [twice, ExtendedMantissa.shiftRightOne, Bool.or_eq_true, roundBit, stickyBit]
    by_cases under : 2 * (number % unit) < unit
    · rw [Nat.mod_eq_of_lt under]
      omega
    · exact ⟨fun _ => by omega, fun _ => .inl (by omega)⟩

theorem shiftRight (cut : Cut extended number unit) (places : Nat) :
    Cut (extended >>> places) number (unit * 2 ^ places) := by
  induction places with
  | zero =>
      rw [Nat.pow_zero, Nat.mul_one]
      exact cut
  | succ places inductionHypothesis =>
      rw [Nat.pow_succ, ← Nat.mul_assoc]
      exact inductionHypothesis.shiftRightOne

theorem roundedMantissa (cut : Cut extended number unit) :
    extended.roundedMantissa = nearestQuotient number unit := by
  obtain ⟨positive, mantissa, roundBit, stickyBit⟩ := cut
  have small : number % unit < unit := Nat.mod_lt number positive
  obtain ⟨units, round, sticky⟩ := extended
  dsimp only at mantissa roundBit stickyBit
  subst mantissa
  unfold nearestQuotient
  cases round with
  | false =>
      have under : 2 * (number % unit) < unit := by simpa using roundBit
      rw [if_pos (.inl under)]
      cases sticky <;> rfl
  | true =>
      have atLeastHalf : unit ≤ 2 * (number % unit) := by simpa using roundBit
      have more : 2 * (number % unit) % unit = 2 * (number % unit) - unit := by
        rw [Nat.mod_eq_sub_mod atLeastHalf, Nat.mod_eq_of_lt (by omega)]
      cases sticky with
      | false =>
          have half : 2 * (number % unit) = unit := by
            have none : 2 * (number % unit) % unit = 0 := by simpa using stickyBit
            omega
          change number / unit + number / unit % 2 = _
          split <;> omega
      | true =>
          have beyond : 2 * (number % unit) % unit ≠ 0 := by simpa using stickyBit
          rw [if_neg (by omega)]
          rfl

end Cut

variable {mantissa : Nat} {exponent : Int} {sign : Sign}

theorem targetExponent_binary64 (total : Int) :
    Format.binary64.targetExponent total = max (total - 53) (-1074) := rfl

theorem shiftToTargetExponent_eq (long : 52 ≤ mantissa.log2) (normal : -1074 ≤ exponent) :
    shiftToTargetExponent Format.binary64 mantissa exponent .exact =
      (ExtendedMantissa.ofMantissaAndAccuracy mantissa .exact >>> (mantissa.log2 - 52),
        exponent + (mantissa.log2 - 52 : Nat)) := by
  have target : (Format.binary64.targetExponent (totalExponent mantissa exponent) -
      exponent).toNat = mantissa.log2 - 52 := by
    rw [targetExponent_binary64, totalExponent]
    omega
  simp only [shiftToTargetExponent, shiftToExponent, target]

theorem exists_normal (low : 2 ^ 52 ≤ mantissa) (high : mantissa ≤ 2 ^ 53) :
    ∃ carry, mantissa.log2 - 52 = carry ∧ (mantissa / 2 ^ carry).log2 = 52 ∧
      mantissa / 2 ^ carry * 2 ^ carry = mantissa := by
  rcases high.lt_or_eq with short | rfl
  · have length : mantissa.log2 = 52 := (Nat.log2_eq_iff (by omega)).mpr ⟨low, short⟩
    exact ⟨0, by omega, by simpa using length, by simp⟩
  · exact ⟨1, by decide, by decide, by decide⟩

theorem roundWithAccuracy_eq (sign : Sign) (long : 52 ≤ mantissa.log2) (normal : -1074 ≤ exponent) :
    ∃ (rounded scale : Nat) (positive : 0 < rounded),
      roundWithAccuracy Format.binary64 sign mantissa exponent .exact =
        .finite sign rounded (exponent + scale) positive ∧
      rounded.log2 = 52 ∧ rounded * 2 ^ scale = double mantissa ∧ mantissa.log2 - 52 ≤ scale := by
  obtain ⟨low, high⟩ := nearestQuotient_bounds long
  have first : (ExtendedMantissa.ofMantissaAndAccuracy mantissa .exact >>>
      (mantissa.log2 - 52)).roundedMantissa =
        nearestQuotient mantissa (2 ^ (mantissa.log2 - 52)) := by
    simpa using ((Cut.whole mantissa).shiftRight (mantissa.log2 - 52)).roundedMantissa
  unfold roundWithAccuracy
  rw [shiftToTargetExponent_eq long normal]
  dsimp only
  rw [first]
  unfold double
  generalize nearestQuotient mantissa (2 ^ (mantissa.log2 - 52)) = quotient at low high
  have stillLong : 52 ≤ quotient.log2 := (Nat.le_log2 (by omega)).mpr low
  rw [shiftToTargetExponent_eq stillLong (by omega)]
  dsimp only
  have second := ((Cut.whole quotient).shiftRight (quotient.log2 - 52)).mantissa
  obtain ⟨carry, isCarry, length, exact⟩ := exists_normal low high
  rw [Nat.one_mul] at second
  rw [isCarry] at second ⊢
  have positive : 0 < quotient / 2 ^ carry := by
    refine Nat.pos_of_ne_zero fun zero => ?_
    rw [zero] at length
    exact absurd length (by decide)
  refine ⟨quotient / 2 ^ carry, mantissa.log2 - 52 + carry, positive, ?_, length, ?_, by omega⟩
  · rw [dif_neg (by rw [second]; exact positive.ne')]
    congr 1
    omega
  · rw [Nat.pow_add, Nat.mul_comm (2 ^ _), ← Nat.mul_assoc, exact]

end Rounding

section Packing

variable {mantissa scale : Nat} {sign : Sign} {positive : 0 < mantissa}

theorem toNat_append_one (length : mantissa.log2 = 52) (positive : 0 < mantissa) :
    (1#1 ++ BitVec.ofNat 52 mantissa).toNat = mantissa := by
  obtain ⟨low, high⟩ := (Nat.log2_eq_iff positive.ne').mp length
  rw [BitVec.toNat_append, ← Nat.shiftLeft_add_eq_or_of_lt (BitVec.isLt _), Nat.shiftLeft_eq,
    BitVec.toNat_ofNat, BitVec.toNat_ofNat]
  omega

theorem biased_eq (scale : Nat) :
    ((scale : Int) - 52 + (Format.binary64.exponentBias : Nat) + (52 : Nat)).toNat =
      scale + 1023 := by
  simp only [Format.exponentBias]
  omega

theorem pack_finite (length : mantissa.log2 = 52) (small : scale ≤ 1023) :
    UnpackedFloat.pack Format.binary64 (.finite sign mantissa ((scale : Int) - 52) positive) =
      packComponents Format.binary64 sign (BitVec.ofNat 11 (scale + 1023))
        (BitVec.ofNat 52 mantissa) := by
  have full : mantissa.log2 + 1 = Format.binary64.mantissaBits := by
    rw [length]
    rfl
  unfold UnpackedFloat.pack
  dsimp only
  rw [biased_eq, if_neg (by omega), if_pos full]

theorem pack_infinite (large : 1024 ≤ scale) :
    UnpackedFloat.pack Format.binary64 (.finite sign mantissa ((scale : Int) - 52) positive) =
      packedInfinity Format.binary64 sign := by
  unfold UnpackedFloat.pack
  dsimp only
  rw [biased_eq, if_pos (by omega)]

theorem unpack_pack_eq (float : UnpackedFloat) : (pack float).unpack =
    UnpackedFloat.unpack Format.binary64 (UnpackedFloat.pack Format.binary64 float) := rfl

theorem unpack_pack (sign : Sign) (positive : 0 < mantissa) (length : mantissa.log2 = 52)
    (small : scale ≤ 1023) :
    ∃ packed, (pack (.finite sign mantissa ((scale : Int) - 52) positive)).unpack =
      .finite packed mantissa ((scale : Int) - 52) positive := by
  have field : (BitVec.ofNat 11 (scale + 1023)).toNat = scale + 1023 := by
    rw [BitVec.toNat_ofNat, Nat.mod_eq_of_lt (by omega)]
  have notLast : BitVec.ofNat 11 (scale + 1023) ≠ -1#11 := by
    intro same
    rw [same] at field
    simp at field
    omega
  have notZero : BitVec.ofNat 11 (scale + 1023) ≠ 0#11 := by
    intro same
    rw [same] at field
    simp at field
  rw [unpack_pack_eq, pack_finite length small]
  unfold UnpackedFloat.unpack
  dsimp only
  rw [unpackExponent_packComponents, if_neg notLast, if_neg notZero]
  refine ⟨_, (finite.injEq ..).mpr ⟨rfl, ?_, ?_⟩⟩
  · rw [unpackMantissa_packComponents]
    exact toNat_append_one length positive
  · rw [field]
    simp only [Format.exponentBias]
    omega

theorem isInf_pack (large : 1024 ≤ scale) :
    (pack (.finite sign mantissa ((scale : Int) - 52) positive)).isInf = true := by
  rw [Float.Model.isInf, unpack_pack_eq, pack_infinite large, packedInfinity]
  unfold UnpackedFloat.unpack
  simp [UnpackedFloat.isInf]

end Packing

/-- The value of a float is a whole number, which is not zero. -/
def Represents (float : Float) (value : Nat) : Prop :=
  ∃ (sign : Sign) (mantissa scale : Nat) (positive : 0 < mantissa),
    float.toModel.unpack = .finite sign mantissa ((scale : Int) - 52) positive ∧
      mantissa.log2 = 52 ∧ mantissa * 2 ^ scale = value * 2 ^ 52

def parts? : UnpackedFloat → Option (Nat × Int)
  | .finite _ mantissa exponent _ => some (mantissa, exponent)
  | _ => none

theorem exists_finite {float : UnpackedFloat} {mantissa : Nat} {exponent : Int}
    (parts : parts? float = some (mantissa, exponent)) :
    ∃ sign positive, float = .finite sign mantissa exponent positive := by
  cases float with
  | finite sign _ _ positive =>
      cases parts
      exact ⟨sign, positive, rfl⟩
  | _ => cases parts

section Values

variable {float other : Float} {value number exponent : Nat}

theorem scale_lt_iff {mantissa scale places : Nat} (length : mantissa.log2 = 52)
    (positive : 0 < mantissa) (same : mantissa * 2 ^ scale = value * 2 ^ 52) :
    scale < places ↔ value < 2 ^ places := by
  obtain ⟨low, high⟩ := (Nat.log2_eq_iff positive.ne').mp length
  constructor
  · intro less
    have below : value * 2 ^ 52 < 2 ^ places * 2 ^ 52 := calc
      value * 2 ^ 52 = mantissa * 2 ^ scale := same.symm
      _ < 2 ^ 53 * 2 ^ scale := Nat.mul_lt_mul_of_pos_right high (Nat.two_pow_pos scale)
      _ = 2 ^ (scale + 1) * 2 ^ 52 := by ring
      _ ≤ 2 ^ places * 2 ^ 52 := Nat.mul_le_mul_right _ (Nat.pow_le_pow_right (by decide) less)
    exact Nat.lt_of_mul_lt_mul_right below
  · intro below
    by_contra notLess
    have atLeast : 2 ^ places * 2 ^ 52 ≤ value * 2 ^ 52 := calc
      2 ^ places * 2 ^ 52 ≤ 2 ^ scale * 2 ^ 52 :=
        Nat.mul_le_mul_right _ (Nat.pow_le_pow_right (by decide) (Nat.le_of_not_lt notLess))
      _ ≤ mantissa * 2 ^ scale := by
        rw [Nat.mul_comm]
        exact Nat.mul_le_mul_right _ low
      _ = value * 2 ^ 52 := same
    exact absurd (Nat.le_of_mul_le_mul_right atLeast (Nat.two_pow_pos 52)) (Nat.not_le_of_lt below)

theorem represents_pack {mantissa scale : Nat} {sign : Sign} {positive : 0 < mantissa}
    (model : float.toModel = pack (.finite sign mantissa ((scale : Int) - 52) positive))
    (length : mantissa.log2 = 52) (same : mantissa * 2 ^ scale = value * 2 ^ 52)
    (small : value < 2 ^ 1024) : Represents float value := by
  have fits : scale < 1024 := (scale_lt_iff length positive same).mpr small
  obtain ⟨packed, unpacked⟩ := unpack_pack sign positive length (Nat.le_of_lt_succ fits)
  exact ⟨packed, mantissa, scale, positive, by rw [model, unpacked], length, same⟩

theorem isInf_pack_eq_false_iff {mantissa scale : Nat} {sign : Sign} {positive : 0 < mantissa}
    (length : mantissa.log2 = 52) (same : mantissa * 2 ^ scale = value * 2 ^ 52) :
    (pack (.finite sign mantissa ((scale : Int) - 52) positive)).isInf = false ↔
      value < 2 ^ 1024 := by
  rw [← scale_lt_iff length positive same]
  constructor
  · intro finite
    by_contra large
    rw [isInf_pack (Nat.le_of_not_lt large)] at finite
    cases finite
  · intro small
    obtain ⟨packed, unpacked⟩ := unpack_pack sign positive length (Nat.le_of_lt_succ small)
    rw [Float.Model.isInf, unpacked]
    rfl

theorem double_mul {first second mantissa multiplier scale otherScale : Nat}
    (same : mantissa * 2 ^ scale = first * 2 ^ 52)
    (otherSame : multiplier * 2 ^ otherScale = second * 2 ^ 52) :
    double (mantissa * multiplier) * 2 ^ (scale + otherScale) =
      double (first * second) * 2 ^ (52 + 52) := by
  have product : mantissa * multiplier * 2 ^ (scale + otherScale) =
      first * second * 2 ^ (52 + 52) := by
    rw [Nat.pow_add, Nat.pow_add, Nat.mul_mul_mul_comm, same, otherSame, Nat.mul_mul_mul_comm]
  rw [← double_mul_two_pow, product, double_mul_two_pow]

/-- A product overflows where the next double would be too large. -/
theorem isInf_mul_eq_false_iff {first second : Nat} (isFirst : Represents float first)
    (isSecond : Represents other second) :
    (float * other).isInf = false ↔ double (first * second) < 2 ^ 1024 := by
  obtain ⟨sign, mantissa, scale, positive, unpacked, length, same⟩ := isFirst
  obtain ⟨otherSign, multiplier, otherScale, otherPositive, otherUnpacked, otherLength,
    otherSame⟩ := isSecond
  have low := ((Nat.log2_eq_iff positive.ne').mp length).1
  have otherLow := ((Nat.log2_eq_iff otherPositive.ne').mp otherLength).1
  have long : 52 + 52 ≤ (mantissa * multiplier).log2 := by
    rw [Nat.le_log2 (Nat.mul_ne_zero positive.ne' otherPositive.ne'), Nat.pow_add]
    exact Nat.mul_le_mul low otherLow
  have normal : -1074 ≤ ((scale : Int) - 52) + ((otherScale : Int) - 52) := by omega
  obtain ⟨rounded, shift, roundedPositive, rounds, roundedLength, isDouble, atLeast⟩ :=
    roundWithAccuracy_eq (sign * otherSign) (Nat.le_of_add_right_le long) normal
  obtain ⟨rest, rfl⟩ : ∃ rest, shift = rest + 52 := ⟨shift - 52, by omega⟩
  have total : ((scale : Int) - 52) + ((otherScale : Int) - 52) + (rest + 52 : Nat) =
      ((scale + otherScale + rest : Nat) : Int) - 52 := by omega
  rw [total] at rounds
  have model : (float * other).toModel = pack (.finite (sign * otherSign) rounded
      (((scale + otherScale + rest : Nat) : Int) - 52) roundedPositive) := by
    change pack (UnpackedFloat.mul Format.binary64 float.toModel.unpack other.toModel.unpack) = _
    rw [unpacked, otherUnpacked, ← rounds]
    rfl
  have value : rounded * 2 ^ (scale + otherScale + rest) * 2 ^ 52 =
      double (first * second) * 2 ^ 52 * 2 ^ 52 := by
    have split : 2 ^ (scale + otherScale + rest) * 2 ^ 52 =
        2 ^ (rest + 52) * 2 ^ (scale + otherScale) := by ring
    rw [Nat.mul_assoc, split, ← Nat.mul_assoc, isDouble, double_mul same otherSame, Nat.pow_add,
      ← Nat.mul_assoc]
  rw [Float.isInf, model]
  exact isInf_pack_eq_false_iff roundedLength (Nat.mul_right_cancel (Nat.two_pow_pos 52) value)

theorem normalize_eq_roundWithAccuracy (positive : 0 < number) :
    UnpackedFloat.normalize Format.binary64 (number : Int) 0 .positive =
      roundWithAccuracy Format.binary64 .positive (number * 2 ^ (52 - number.log2))
        (-(52 - number.log2 : Nat)) .exact := by
  have shift : (-Format.binary64.targetExponent (totalExponent number 0)).toNat =
      52 - number.log2 := by
    rw [targetExponent_binary64, totalExponent]
    omega
  have isPositive : compare (number : Int) 0 = .gt := Int.compare_eq_gt.mpr (by omega)
  rw [UnpackedFloat.normalize, isPositive]
  simp only [Float.Model.UnpackedFloat.round, decreaseExponent, shift, Nat.shiftLeft_eq,
    Int.toNat_natCast, Int.zero_sub]

theorem represents_toFloat (positive : 0 < number) (inWord : number < UInt64.size) :
    Represents number.toUInt64.toFloat (double number) := by
  have same : number.toUInt64.toNat = number := UInt64.toNat_ofNat_of_lt' inWord
  have length : number.log2 < 64 := (Nat.log2_lt positive.ne').mpr inWord
  have long : 52 ≤ (number * 2 ^ (52 - number.log2)).log2 := by
    rw [log2_mul_two_pow positive.ne']
    omega
  have normal : -1074 ≤ -((52 - number.log2 : Nat) : Int) := by omega
  obtain ⟨rounded, scale, roundedPositive, rounds, roundedLength, isDouble, -⟩ :=
    roundWithAccuracy_eq .positive long normal
  have model : number.toUInt64.toFloat.toModel = pack (.finite .positive rounded
      (((52 - (52 - number.log2) + scale : Nat) : Int) - 52) roundedPositive) := by
    have scaled : -((52 - number.log2 : Nat) : Int) + scale =
        ((52 - (52 - number.log2) + scale : Nat) : Int) - 52 := by omega
    change pack (UnpackedFloat.normalize Format.binary64 (number.toUInt64.toNat : Int) 0
      .positive) = _
    rw [same, normalize_eq_roundWithAccuracy positive, rounds, scaled]
  refine represents_pack model roundedLength ?_ ?_
  · rw [Nat.pow_add, Nat.mul_comm (2 ^ _), ← Nat.mul_assoc, isDouble, double_mul_two_pow,
      Nat.mul_assoc, ← Nat.pow_add]
    congr 2
    omega
  · exact (double_le number).trans_lt (pow_lt_pow_right₀ Nat.one_lt_two (by omega))

/-- The powers of ten that are doubles themselves are listed. -/
theorem represents_listedPower (listed : exponent ≤ 22) :
    Represents (OfScientific.ofScientific 1 false exponent) (double (10 ^ exponent)) := by
  have all : ∀ power ≤ 22,
      parts? (OfScientific.ofScientific 1 false power : Float).toModel.unpack =
          some (10 ^ power * 2 ^ 52 / 2 ^ (10 ^ power).log2, ((10 ^ power).log2 : Int) - 52) ∧
        (10 ^ power * 2 ^ 52 / 2 ^ (10 ^ power).log2).log2 = 52 ∧
        10 ^ power * 2 ^ 52 / 2 ^ (10 ^ power).log2 * 2 ^ (10 ^ power).log2 =
          double (10 ^ power) * 2 ^ 52 := by decide +kernel
  obtain ⟨parts, length, same⟩ := all exponent listed
  obtain ⟨sign, positive, unpacked⟩ := exists_finite parts
  exact ⟨sign, _, _, positive, unpacked, length, same⟩

theorem represents_computedPower (computed : 22 < exponent) (small : exponent ≤ 308) :
    Represents (OfScientific.ofScientific 1 false exponent) (double (10 ^ exponent)) := by
  have inRange : ∀ power ≤ 308, double (10 ^ power) < 2 ^ 1024 := by decide +kernel
  have long : 53 ≤ (10 ^ exponent * 2 ^ 53).log2 := by
    rw [log2_mul_two_pow (Nat.pow_pos (by decide)).ne']
    omega
  have normal : -1074 ≤ (-53 : Int) := by decide
  obtain ⟨rounded, scale, positive, rounds, length, isDouble, atLeast⟩ :=
    roundWithAccuracy_eq .positive (Nat.le_of_succ_le long) normal
  obtain ⟨rest, rfl⟩ : ∃ rest, scale = rest + 1 := ⟨scale - 1, by omega⟩
  have model : (OfScientific.ofScientific 1 false exponent : Float).toModel =
      pack (.finite .positive rounded ((rest : Int) - 52) positive) := by
    change (Float.ofScientific 1 false exponent).toModel = _
    rw [Float.ofScientific, dif_neg (by omega)]
    change pack (UnpackedFloat.ofScientific Format.binary64 1 (exponent : Int)) = _
    have limit : (2 : Int) ^ Format.binary64.exponentBits = 2048 := rfl
    rw [UnpackedFloat.ofScientific, dif_neg Nat.one_ne_zero, if_neg (by omega), if_neg (by omega),
      if_pos (by omega)]
    change pack (roundWithAccuracy Format.binary64 .positive (1 <<< 53 * 10 ^ exponent) (-53)
      .exact) = _
    have mantissa : 1 <<< 53 * 10 ^ exponent = 10 ^ exponent * 2 ^ 53 := Nat.mul_comm _ _
    have lowered : (-53 : Int) + (rest + 1 : Nat) = (rest : Int) - 52 := by omega
    rw [mantissa, rounds, lowered]
  refine represents_pack model length (Nat.mul_right_cancel Nat.two_pos ?_) (inRange exponent small)
  rw [Nat.mul_assoc, ← Nat.pow_succ, isDouble, double_mul_two_pow, Nat.mul_assoc, ← Nat.pow_succ]

theorem represents_tenPower (small : exponent ≤ 308) :
    Represents (OfScientific.ofScientific 1 false exponent) (double (10 ^ exponent)) := by
  by_cases listed : exponent ≤ 22
  · exact represents_listedPower listed
  · exact represents_computedPower (Nat.lt_of_not_le listed) small

end Values

/-- Digits and a power of ten that they are scaled by, which fit into a double: the double of the
one times the double of the other is a double. -/
def FitsDouble (significand : Nat) (exponent : Int) : Prop :=
  exponent < 0 ∨ double (double significand * double (10 ^ exponent.toNat)) < 2 ^ 1024

theorem isFiniteScaled_eq_true_iff {significand : Nat} {exponent : Int}
    (inWord : significand < UInt64.size) :
    isFiniteScaled significand exponent = true ↔ FitsDouble significand exponent := by
  unfold isFiniteScaled FitsDouble
  simp only [Bool.or_eq_true, Bool.and_eq_true, Bool.not_eq_true', beq_iff_eq, decide_eq_true_eq]
  by_cases small : exponent < 0
  · exact iff_of_true (.inl (.inr small)) (.inl small)
  by_cases zero : significand = 0
  · have nothing : double (double significand * double (10 ^ exponent.toNat)) = 0 := by
      rw [zero, double_zero, Nat.zero_mul, double_zero]
    rw [nothing]
    exact iff_of_true (.inl (.inl zero)) (.inr (pow_pos Nat.two_pos 1024))
  have positive := Nat.pos_of_ne_zero zero
  by_cases power : exponent ≤ 308
  · rw [isInf_mul_eq_false_iff (represents_toFloat positive inWord)
      (represents_tenPower (by omega))]
    simp only [small, zero, power, or_self, false_or, true_and]
  · have tooLarge : ∀ power ≥ 309, 2 ^ 1024 ≤ 10 ^ power := fun power atLeast =>
      le_trans (by decide +kernel) (Nat.pow_le_pow_right (by decide) atLeast)
    have product : 2 ^ 1024 ≤ double significand * double (10 ^ exponent.toNat) :=
      (two_pow_le_double (tooLarge exponent.toNat (by omega))).trans
        (Nat.le_mul_of_pos_left _ (double_pos positive))
    have overflows := (two_pow_le_double product).not_gt
    exact iff_of_false (by simp [small, zero, power]) (not_or.mpr ⟨small, overflows⟩)

end CpuScheduling.Json
