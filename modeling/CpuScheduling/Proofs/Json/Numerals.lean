import CpuScheduling.Checked
import CpuScheduling.Proofs.Json.Doubles
import Mathlib.Data.Nat.Find
import Mathlib.Tactic.SplitIfs

/-!
Numbers as they are written: digits, maybe a fraction, maybe an exponent.  What is read is such a
number to its last digit; one that is a plain natural number has exactly its value, as long as a
word holds it, and every other one only has to be small enough for a double.
-/

namespace CpuScheduling.Json

def figure (digit : Fin 10) : UInt8 :=
  byte (Nat.digitChar digit)

def figures (digits : List (Fin 10)) : Bytes :=
  digits.map figure

def decimalFrom (value : Nat) (digits : List (Fin 10)) : Nat :=
  digits.foldl (fun (value : Nat) (digit : Fin 10) => value * 10 + digit) value

/-- The number that digits stand for. -/
def decimal (digits : List (Fin 10)) : Nat :=
  decimalFrom 0 digits

inductive Whole : List (Fin 10) → Prop
  | zero : Whole [0]
  | nonzero {first : Fin 10} {more : List (Fin 10)} (nonzero : first ≠ 0) : Whole (first :: more)

inductive Sign where
  | absent
  | plus
  | minus
  deriving DecidableEq

def Sign.text : Sign → Bytes
  | absent => []
  | plus => [byte '+']
  | minus => [byte '-']

structure Exponent where
  mark : UInt8
  sign : Sign
  first : Fin 10
  more : List (Fin 10)
  isMark : mark = byte 'e' ∨ mark = byte 'E'

namespace Exponent

variable (exponent : Exponent)

def digits : List (Fin 10) :=
  exponent.first :: exponent.more

def tail : Bytes :=
  exponent.sign.text ++ figures exponent.digits

/-- The power of ten in all, behind digits that are scaled already. -/
def addedTo (scale : Int) : Int :=
  if exponent.sign = .minus then scale - decimal exponent.digits
  else scale + decimal exponent.digits

/-- The number is small enough for a double.  An exponent that leaves its word makes a zero or, when
it is negative, a number that is as good as one. -/
def Finite (significand : Nat) (scale : Int) : Prop :=
  if decimal exponent.digits < exponentSize then
    FitsDouble significand (exponent.addedTo scale)
  else significand = 0 ∨ exponent.sign = .minus

end Exponent

def exponentText : Option Exponent → Bytes
  | none => []
  | some exponent => exponent.mark :: exponent.tail

/-- A whole number times a power of ten, and maybe an exponent, is small enough for a double. -/
def FiniteScaled (significand : Nat) (scale : Int) : Option Exponent → Prop
  | none => FitsDouble significand scale
  | some exponent => exponent.Finite significand scale

/-- The most digits that a word holds behind others. -/
def taken (front digits : List (Fin 10)) : List (Fin 10) :=
  digits.take (Nat.findGreatest (fun count => decimal (front ++ digits.take count) < UInt64.size)
    digits.length)

/-- A number as it is written.  It has a point where it has digits behind one. -/
structure Numeral where
  negative : Bool
  whole : List (Fin 10)
  fraction : List (Fin 10)
  exponent : Option Exponent
  isWhole : Whole whole

namespace Numeral

variable (numeral : Numeral)

def tail : Bytes :=
  (if numeral.fraction = [] then [] else byte '.' :: figures numeral.fraction) ++
    exponentText numeral.exponent

def unsigned : Bytes :=
  figures numeral.whole ++ numeral.tail

def text : Bytes :=
  if numeral.negative then byte '-' :: numeral.unsigned else numeral.unsigned

/-- The number is whole, is written so, and a word holds it without its sign. -/
def Fits : Prop :=
  numeral.fraction = [] ∧ numeral.exponent = none ∧ decimal numeral.whole < UInt64.size

def wholeTaken : List (Fin 10) :=
  taken [] numeral.whole

def fractionTaken : List (Fin 10) :=
  taken numeral.wholeTaken numeral.fraction

/-- The digits as far as a word holds them are scaled by ten for each whole one that is left, and
down again for each one taken from behind the point. -/
def Finite : Prop :=
  FiniteScaled (decimal (numeral.wholeTaken ++ numeral.fractionTaken))
    ((numeral.whole.length - numeral.wholeTaken.length : Nat) - numeral.fractionTaken.length)
    numeral.exponent

/-- What a number stands for: its value where it is natural and a word holds it.  One that no word
holds has to be small enough for a double. -/
inductive Denotes : Number → Prop
  | natural (unsigned : numeral.negative = false) (fits : numeral.Fits) :
      Denotes (.natural (decimal numeral.whole))
  | negative (signed : numeral.negative = true) (fits : numeral.Fits) : Denotes .other
  | double (large : ¬numeral.Fits) (finite : numeral.Finite) : Denotes .other

end Numeral

def EndsDigits (rest : Bytes) : Prop :=
  ∀ next ∈ rest.head?, isDigit next = false

def EndsNumber (rest : Bytes) : Prop :=
  ∀ next ∈ rest.head?, isDigit next = false ∧ next ≠ byte '.' ∧ next ≠ byte 'e' ∧ next ≠ byte 'E'

section Digits

variable {digit : Fin 10} {digits front : List (Fin 10)} {letter : UInt8} {text rest : Bytes}
  {value limit : Nat}

@[simp]
theorem figures_nil : figures [] = [] := rfl

@[simp]
theorem figures_cons : figures (digit :: digits) = figure digit :: figures digits := rfl

theorem toNat_figure : ∀ digit, (figure digit).toNat = 48 + digit := by
  decide

@[simp]
theorem isDigit_figure : ∀ digit, isDigit (figure digit) = true := by
  decide

@[simp]
theorem digitValue_figure : ∀ digit, digitValue (figure digit) = digit := by
  decide

theorem figure_zero : figure 0 = byte '0' := rfl

theorem figure_eq_zero_iff : ∀ {digit}, figure digit = byte '0' ↔ digit = 0 := by
  decide

theorem isDigit_iff : isDigit letter = true ↔ 48 ≤ letter.toNat ∧ letter.toNat ≤ 57 := by
  simp [isDigit, byte, UInt8.le_iff_toNat_le]

theorem exists_figure (isDigit : isDigit letter = true) : ∃ digit, letter = figure digit := by
  rw [isDigit_iff] at isDigit
  refine ⟨⟨letter.toNat - 48, by omega⟩, UInt8.toNat_inj.mp ?_⟩
  rw [toNat_figure]
  exact (Nat.add_sub_cancel' isDigit.1).symm

theorem digits_append (ends : EndsDigits rest) :
    Json.digits (figures digits ++ rest) = (digits.map Fin.val, rest) := by
  induction digits with
  | nil =>
      cases rest with
      | nil => rfl
      | cons next rest =>
          have noDigit : isDigit next = false := ends next rfl
          simp [Json.digits, noDigit]
  | cons digit digits inductionHypothesis =>
      rw [Json.digits, Prod.mk.injEq] at inductionHypothesis
      simp [Json.digits, inductionHypothesis]

theorem digits_sound (text : Bytes) :
    ∃ found rest, Json.digits text = (found.map Fin.val, rest) ∧ text = figures found ++ rest := by
  induction text with
  | nil => exact ⟨[], [], rfl, rfl⟩
  | cons letter text inductionHypothesis =>
      cases isDigit : isDigit letter with
      | false => exact ⟨[], letter :: text, by simp [Json.digits, isDigit], rfl⟩
      | true =>
          obtain ⟨digit, rfl⟩ := exists_figure isDigit
          obtain ⟨found, rest, reads, rfl⟩ := inductionHypothesis
          simp only [Json.digits, Prod.mk.injEq] at reads
          exact ⟨digit :: found, rest, by simp [Json.digits, reads], rfl⟩

theorem decimal_concat (digits : List (Fin 10)) (digit : Fin 10) :
    decimal (digits ++ [digit]) = decimal digits * 10 + digit := by
  simp [decimal, decimalFrom]

theorem exists_whole (value : Nat) : ∃ whole, Whole whole ∧ decimal whole = value := by
  induction value using Nat.strongRecOn with
  | ind value inductionHypothesis =>
      by_cases small : value < 10
      · by_cases zero : value = 0
        · exact ⟨[0], .zero, zero.symm⟩
        · exact ⟨[⟨value, small⟩], .nonzero (by simpa [Fin.ext_iff] using zero),
            by simp [decimal, decimalFrom]⟩
      · obtain ⟨whole, isWhole, same⟩ := inductionHypothesis (value / 10) (by omega)
        refine ⟨whole ++ [⟨value % 10, Nat.mod_lt value (by decide)⟩], ?_, ?_⟩
        · cases isWhole with
          | zero =>
              have none : value / 10 = 0 := same.symm
              omega
          | nonzero nonzero => exact .nonzero nonzero
        · rw [decimal_concat, same]
          exact Nat.div_add_mod' value 10

theorem le_decimalFrom : value ≤ decimalFrom value digits := by
  induction digits generalizing value with
  | nil => exact Nat.le_refl value
  | cons digit digits inductionHypothesis =>
      have larger : value ≤ value * 10 + digit := by omega
      exact Nat.le_trans larger inductionHypothesis

theorem decimal_append (front digits : List (Fin 10)) :
    decimal (front ++ digits) = decimalFrom (decimal front) digits :=
  List.foldl_append

theorem exists_accumulate_eq (digits : List (Fin 10)) (inLimit : decimal front < limit) :
    ∃ count ≤ digits.length,
      accumulate limit (decimal front) (digits.map Fin.val) =
        (decimal (front ++ digits.take count), digits.length - count) ∧
      decimal (front ++ digits.take count) < limit ∧
      ∀ more, count < more → more ≤ digits.length →
        ¬decimal (front ++ digits.take more) < limit := by
  induction digits generalizing front with
  | nil =>
      exact ⟨0, Nat.le_refl 0, by simp [accumulate], by simpa using inLimit,
        fun _ larger inMore => absurd inMore (Nat.not_le.mpr larger)⟩
  | cons digit digits inductionHypothesis =>
      have further (count : Nat) : decimal (front ++ (digit :: digits).take (count + 1)) =
          decimal (front ++ [digit] ++ digits.take count) := by simp
      rw [List.map_cons, accumulate, ← decimal_concat]
      by_cases fits : decimal (front ++ [digit]) < limit
      · obtain ⟨count, inDigits, reads, small, most⟩ := inductionHypothesis fits
        rw [if_pos fits, reads]
        refine ⟨count + 1, Nat.succ_le_succ inDigits, ?_, ?_, ?_⟩
        · rw [further, List.length_cons, Nat.add_sub_add_right]
        · rw [further]
          exact small
        · rintro (_ | more) larger inMore
          · omega
          · rw [further]
            exact most more (Nat.lt_of_succ_lt_succ larger) (Nat.le_of_succ_le_succ inMore)
      · rw [if_neg fits]
        refine ⟨0, Nat.zero_le _, by simp, by simpa using inLimit, ?_⟩
        rintro (_ | more) larger -
        · omega
        · rw [further, decimal_append]
          exact fun small => fits (Nat.lt_of_le_of_lt le_decimalFrom small)

theorem length_sub_unused :
    digits.length - (digits.length - (taken front digits).length) = (taken front digits).length :=
  Nat.sub_sub_self (List.length_take_le' ..)

theorem taken_spec (digits : List (Fin 10)) (inWord : decimal front < UInt64.size) :
    accumulate UInt64.size (decimal front) (digits.map Fin.val) =
        (decimal (front ++ taken front digits), digits.length - (taken front digits).length) ∧
      decimal (front ++ taken front digits) < UInt64.size := by
  obtain ⟨count, inDigits, reads, small, most⟩ := exists_accumulate_eq digits inWord
  have greatest : Nat.findGreatest
      (fun count => decimal (front ++ digits.take count) < UInt64.size) digits.length = count :=
    Nat.findGreatest_eq_iff.mpr ⟨inDigits, fun _ => small, most⟩
  have taken : taken front digits = digits.take count := by rw [Json.taken, greatest]
  have length : (digits.take count).length = count := List.length_take_of_le inDigits
  rw [taken, length]
  exact ⟨reads, small⟩

theorem accumulate_of_lt (fits : decimalFrom value digits < limit) :
    accumulate limit value (digits.map Fin.val) = (decimalFrom value digits, 0) := by
  induction digits generalizing value with
  | nil => rfl
  | cons digit digits inductionHypothesis =>
      have small : value * 10 + digit < limit := Nat.lt_of_le_of_lt le_decimalFrom fits
      rw [List.map_cons, accumulate, if_pos small]
      exact inductionHypothesis fits

theorem accumulate_excess_ne_zero (small : value < limit)
    (large : ¬decimalFrom value digits < limit) :
    (accumulate limit value (digits.map Fin.val)).2 ≠ 0 := by
  induction digits generalizing value with
  | nil => exact absurd small large
  | cons digit digits inductionHypothesis =>
      rw [List.map_cons, accumulate]
      split
      next small => exact inductionHypothesis small large
      next => exact Nat.succ_ne_zero _

theorem accumulate_excess_eq_zero_iff (small : value < limit) :
    (accumulate limit value (digits.map Fin.val)).2 = 0 ↔ decimalFrom value digits < limit :=
  ⟨fun none => Decidable.not_not.mp fun large => accumulate_excess_ne_zero small large none,
    fun fits => by rw [accumulate_of_lt fits]⟩

end Digits

theorem EndsNumber.endsDigits {rest : Bytes} (ends : EndsNumber rest) : EndsDigits rest :=
  fun next isNext => (ends next isNext).1

theorem EndsDigits.exponentText {rest : Bytes} (ends : EndsDigits rest) (ending : Option Exponent) :
    EndsDigits (Json.exponentText ending ++ rest) := by
  cases ending with
  | none => exact ends
  | some exponent =>
      rintro next isNext
      cases isNext
      obtain isMark | isMark := exponent.isMark <;> rw [isMark] <;> rfl

theorem Numeral.endsDigits_tail {rest : Bytes} (numeral : Numeral) (ends : EndsNumber rest) :
    EndsDigits (numeral.tail ++ rest) := by
  rw [Numeral.tail, List.append_assoc]
  split
  next => exact ends.endsDigits.exponentText numeral.exponent
  next =>
    rintro next isNext
    cases isNext
    rfl

section Parts

variable {mode : Mode} {exponent : Exponent} {significand : Nat} {scale : Int} {whole : List (Fin 10)}
  {values : List Nat} {number : Number} {text rest : Bytes}

theorem wholePart_complete (isWhole : Whole whole) (ends : EndsDigits rest) :
    wholePart (figures whole ++ rest) = .ok (whole.map Fin.val, rest) := by
  cases isWhole with
  | zero =>
      cases rest with
      | nil => rfl
      | cons next rest =>
          have noDigit : isDigit next = false := ends next rfl
          simp [wholePart, figure_zero, noDigit]
  | @nonzero first more nonzero =>
      have noZero : figure first ≠ byte '0' := fun same => nonzero (figure_eq_zero_iff.mp same)
      have reads : Json.digits (figures more ++ rest) = (more.map Fin.val, rest) :=
        digits_append ends
      simp [wholePart, noZero, reads]

theorem wholePart_sound (reads : wholePart text = .ok (values, rest)) :
    ∃ whole, Whole whole ∧ values = whole.map Fin.val ∧ text = figures whole ++ rest := by
  unfold wholePart at reads
  split at reads
  next => cases reads
  next letter behind =>
    split at reads
    next isZero =>
      subst isZero
      split at reads
      · split at reads <;> cases reads
        exact ⟨[0], .zero, rfl, rfl⟩
      · cases reads
        exact ⟨[0], .zero, rfl, rfl⟩
    next notZero =>
      split_ifs at reads with isDigit
      obtain ⟨first, rfl⟩ := exists_figure isDigit
      obtain ⟨more, left, readsMore, rfl⟩ := digits_sound behind
      rw [readsMore] at reads
      cases reads
      exact ⟨first :: more, .nonzero fun zero => notZero (figure_eq_zero_iff.mpr zero), by simp,
        rfl⟩

theorem scaled_complete (inWord : significand < UInt64.size)
    (finite : FitsDouble significand scale) :
    scaled mode significand scale rest = .ok (.other, rest) := by
  simp [scaled, (isFiniteScaled_eq_true_iff inWord).mpr finite]

theorem scaled_sound (wanted : mode.wanted = true) (inWord : significand < UInt64.size)
    (reads : scaled mode significand scale text = .ok (number, rest)) :
    FitsDouble significand scale ∧ number = .other ∧ text = rest := by
  unfold scaled at reads
  split at reads
  next => cases reads
  next finite =>
    cases reads
    simp only [wanted, Bool.true_and, Bool.not_eq_true', Bool.not_eq_false] at finite
    exact ⟨(isFiniteScaled_eq_true_iff inWord).mp finite, rfl, rfl⟩

def signed (text : Bytes) : Bool × Bytes :=
  match text with
  | letter :: rest =>
      if letter = byte '-' then (true, rest)
      else if letter = byte '+' then (false, rest)
      else (false, text)
  | [] => (false, text)

theorem signed_complete {first : Fin 10} (sign : Sign) (text : Bytes) :
    signed (sign.text ++ figure first :: text) = (decide (sign = .minus), figure first :: text) := by
  have noSign : ∀ digit, figure digit ≠ byte '-' ∧ figure digit ≠ byte '+' := by decide
  cases sign with
  | absent => simp [Sign.text, signed, noSign]
  | plus => rfl
  | minus => rfl

theorem signed_sound (text : Bytes) :
    ∃ (sign : Sign) (behind : Bytes),
      signed text = (decide (sign = .minus), behind) ∧ text = sign.text ++ behind := by
  unfold signed
  split
  next letter behind =>
    split
    next isMinus => exact ⟨.minus, behind, rfl, isMinus ▸ rfl⟩
    next =>
      split
      next isPlus => exact ⟨.plus, behind, rfl, isPlus ▸ rfl⟩
      next => exact ⟨.absent, _, rfl, rfl⟩
  next => exact ⟨.absent, [], rfl, rfl⟩

def exponentDigits (mode : Mode) (significand : Nat) (scale : Int) (negative : Bool) :
    Bytes → Except Stop (Number × Bytes)
  | [] => .error (.after .endInValue [])
  | letter :: rest =>
      if isDigit letter then
        let (more, rest) := digits rest
        let (value, excess) := accumulate exponentSize (digitValue letter) more
        if excess = 0 then
          scaled mode significand (if negative then scale - value else scale + value) rest
        else if mode.wanted && significand ≠ 0 && !negative then
          .error ⟨.numberOutOfRange, rest.length + (excess - 1)⟩
        else .ok (.other, rest)
      else .error (.after .invalidNumber rest)

theorem exponentPart_eq (text : Bytes) : exponentPart mode significand scale text =
    exponentDigits mode significand scale (signed text).1 (signed text).2 :=
  rfl

theorem exponentDigits_cons {negative : Bool} {first : Fin 10} {more : List (Fin 10)}
    {behind : Bytes} (readsMore : digits behind = (more.map Fin.val, rest)) :
    exponentDigits mode significand scale negative (figure first :: behind) =
      if decimal (first :: more) < exponentSize then
        scaled mode significand
          (if negative then scale - decimal (first :: more) else scale + decimal (first :: more)) rest
      else if mode.wanted && significand ≠ 0 && !negative then
        .error ⟨.numberOutOfRange, rest.length +
          ((accumulate exponentSize first (more.map Fin.val)).2 - 1)⟩
      else .ok (.other, rest) := by
  have small : (first : Nat) < exponentSize := Nat.lt_trans first.isLt (by decide)
  have same : decimal (first :: more) = decimalFrom first more := by simp [decimal, decimalFrom]
  simp only [exponentDigits, isDigit_figure, if_true, digitValue_figure, readsMore, same,
    accumulate_excess_eq_zero_iff small]
  split
  next fits => rw [accumulate_of_lt fits]
  next => rfl

theorem exponentPart_complete (inWord : significand < UInt64.size)
    (finite : exponent.Finite significand scale) (ends : EndsDigits rest) :
    exponentPart mode significand scale (exponent.tail ++ rest) = .ok (.other, rest) := by
  rw [Exponent.tail, Exponent.digits, List.append_assoc, figures_cons, List.cons_append,
    exponentPart_eq, signed_complete, exponentDigits_cons (digits_append ends)]
  unfold Exponent.Finite Exponent.addedTo Exponent.digits at finite
  split
  next fits =>
    rw [if_pos fits] at finite
    exact scaled_complete inWord (by simpa using finite)
  next large =>
    rw [if_neg large] at finite
    obtain zero | minus := finite
    · simp [zero]
    · simp [minus]

theorem exponentPart_sound (wanted : mode.wanted = true) (inWord : significand < UInt64.size)
    {mark : UInt8} (isMark : mark = byte 'e' ∨ mark = byte 'E')
    (reads : exponentPart mode significand scale text = .ok (number, rest)) :
    ∃ exponent : Exponent, exponent.mark = mark ∧ text = exponent.tail ++ rest ∧
      exponent.Finite significand scale ∧ number = .other := by
  obtain ⟨sign, behind, isSigned, rfl⟩ := signed_sound text
  rw [exponentPart_eq, isSigned] at reads
  cases behind with
  | nil => cases reads
  | cons letter behind =>
      cases isDigit : isDigit letter with
      | false => simp [exponentDigits, isDigit] at reads
      | true =>
          obtain ⟨first, rfl⟩ := exists_figure isDigit
          obtain ⟨more, left, readsMore, rfl⟩ := digits_sound behind
          rw [exponentDigits_cons readsMore] at reads
          let exponent : Exponent := ⟨mark, sign, first, more, isMark⟩
          suffices exponent.Finite significand scale ∧ number = .other ∧ left = rest by
            obtain ⟨finite, isOther, rfl⟩ := this
            exact ⟨exponent, rfl, by simp [exponent, Exponent.tail, Exponent.digits], finite, isOther⟩
          unfold Exponent.Finite Exponent.addedTo Exponent.digits
          split at reads
          next fits =>
            rw [if_pos fits]
            simpa using scaled_sound wanted inWord reads
          next large =>
            rw [if_neg large]
            split at reads
            next => cases reads
            next allowed =>
              cases reads
              simp only [wanted, Bool.true_and, Bool.and_eq_true, Bool.not_eq_true',
                decide_eq_true_eq, decide_eq_false_iff_not, not_and, Decidable.not_not] at allowed
              exact ⟨Decidable.or_iff_not_imp_left.mpr allowed, rfl, rfl⟩

variable {excess : Nat} {front fraction : List (Fin 10)} {ending : Option Exponent}

theorem exponentOrEnd_complete (inWord : significand < UInt64.size)
    (finite : FiniteScaled significand scale ending) (ends : EndsNumber rest) :
    exponentOrEnd mode significand scale (exponentText ending ++ rest) = .ok (.other, rest) := by
  cases ending with
  | none =>
      cases rest with
      | nil => exact scaled_complete inWord finite
      | cons next rest =>
          obtain ⟨-, -, noSmall, noCapital⟩ := ends next rfl
          simpa [exponentText, exponentOrEnd, noSmall, noCapital] using
            scaled_complete inWord finite
  | some exponent =>
      rw [exponentText, List.cons_append, exponentOrEnd, if_pos (by simpa using exponent.isMark)]
      exact exponentPart_complete inWord finite ends.endsDigits

theorem exponentOrEnd_sound (wanted : mode.wanted = true) (inWord : significand < UInt64.size)
    (reads : exponentOrEnd mode significand scale text = .ok (number, rest)) :
    ∃ ending, text = exponentText ending ++ rest ∧ FiniteScaled significand scale ending ∧
      number = .other := by
  have ended (reads : scaled mode significand scale text = .ok (number, rest)) :
      ∃ ending, text = exponentText ending ++ rest ∧
        FiniteScaled significand scale ending ∧ number = .other := by
    obtain ⟨finite, isOther, rfl⟩ := scaled_sound wanted inWord reads
    exact ⟨none, rfl, finite, isOther⟩
  unfold exponentOrEnd at reads
  split at reads
  next letter behind =>
    split at reads
    next isMark =>
      obtain ⟨exponent, rfl, rfl, finite, isOther⟩ :=
        exponentPart_sound wanted inWord (by simpa using isMark) reads
      exact ⟨some exponent, rfl, finite, isOther⟩
    next => exact ended reads
  next => exact ended reads

theorem fractionPart_complete (inWord : decimal front < UInt64.size) (nonempty : fraction ≠ [])
    (finite : FiniteScaled (decimal (front ++ taken front fraction))
      (excess - (taken front fraction).length) ending) (ends : EndsNumber rest) :
    fractionPart mode (decimal front) excess (figures fraction ++ (exponentText ending ++ rest)) =
      .ok (.other, rest) := by
  obtain ⟨reads, stillInWord⟩ := taken_spec fraction inWord
  unfold fractionPart
  rw [digits_append (ends.endsDigits.exponentText ending)]
  simpa [nonempty, reads, length_sub_unused] using exponentOrEnd_complete stillInWord finite ends

theorem fractionPart_sound (wanted : mode.wanted = true) (inWord : decimal front < UInt64.size)
    (reads : fractionPart mode (decimal front) excess text = .ok (number, rest)) :
    ∃ fraction ending, fraction ≠ [] ∧ text = figures fraction ++ (exponentText ending ++ rest) ∧
      FiniteScaled (decimal (front ++ taken front fraction))
        (excess - (taken front fraction).length) ending ∧ number = .other := by
  obtain ⟨fraction, left, readsDigits, rfl⟩ := digits_sound text
  obtain ⟨readsTaken, stillInWord⟩ := taken_spec fraction inWord
  unfold fractionPart at reads
  rw [readsDigits] at reads
  dsimp only at reads
  split at reads
  next => cases reads
  next nonempty =>
    rw [readsTaken, List.length_map, length_sub_unused] at reads
    obtain ⟨ending, rfl, finite, isOther⟩ := exponentOrEnd_sound wanted stillInWord reads
    exact ⟨fraction, ending, by simpa using nonempty, rfl, finite, isOther⟩

def numberTail (mode : Mode) (negative : Bool) (head : Nat × Nat) (text : Bytes) :
    Except Stop (Number × Bytes) :=
  match text with
  | letter :: more =>
      if letter = byte '.' then fractionPart mode head.1 head.2 more
      else if letter = byte 'e' || letter = byte 'E' then exponentPart mode head.1 head.2 more
      else if head.2 = 0 then .ok (if negative then .other else .natural head.1, text)
      else scaled mode head.1 head.2 text
  | [] =>
      if head.2 = 0 then .ok (if negative then .other else .natural head.1, text)
      else scaled mode head.1 head.2 text

theorem number_eq (negative : Bool) (text : Bytes) :
    Json.number mode negative text = (wholePart text >>= fun (whole, rest) =>
      numberTail mode negative (accumulate UInt64.size 0 whole) rest) :=
  rfl

theorem numberTail_of_ends (ends : EndsNumber rest) (negative : Bool) (head : Nat × Nat) :
    numberTail mode negative head rest =
      if head.2 = 0 then .ok (if negative then .other else .natural head.1, rest)
      else scaled mode head.1 head.2 rest := by
  cases rest with
  | nil => rfl
  | cons next rest =>
      obtain ⟨-, noPoint, noSmall, noCapital⟩ := ends next rfl
      simp [numberTail, noPoint, noSmall, noCapital]

def readWhole (whole : List (Fin 10)) : Nat × Nat :=
  accumulate UInt64.size 0 (whole.map Fin.val)

theorem readWhole_of_lt (fits : decimal whole < UInt64.size) :
    readWhole whole = (decimal whole, 0) :=
  accumulate_of_lt fits

theorem readWhole_excess_ne_zero (large : ¬decimal whole < UInt64.size) :
    (readWhole whole).2 ≠ 0 :=
  accumulate_excess_ne_zero (by decide) large

theorem readWhole_eq (whole : List (Fin 10)) :
    readWhole whole = (decimal (taken [] whole), whole.length - (taken [] whole).length) :=
  (taken_spec whole (show decimal [] < UInt64.size by decide)).1

theorem decimal_taken_lt (whole : List (Fin 10)) : decimal (taken [] whole) < UInt64.size :=
  (taken_spec whole (show decimal [] < UInt64.size by decide)).2

theorem readWhole_lt (whole : List (Fin 10)) : (readWhole whole).1 < UInt64.size := by
  rw [readWhole_eq]
  exact decimal_taken_lt whole

theorem taken_nil : taken front [] = [] :=
  List.take_nil

theorem finite_iff_of_no_fraction {negative : Bool} {isWhole : Whole whole} :
    (⟨negative, whole, [], ending, isWhole⟩ : Numeral).Finite ↔
      FiniteScaled (readWhole whole).1 (readWhole whole).2 ending := by
  simp [Numeral.Finite, Numeral.fractionTaken, Numeral.wholeTaken, taken_nil, readWhole_eq]

theorem numberTail_complete (numeral : Numeral) (denotes : numeral.Denotes number)
    (ends : EndsNumber rest) : numberTail mode numeral.negative (readWhole numeral.whole)
      (numeral.tail ++ rest) = .ok (number, rest) := by
  have ofFits (fits : numeral.Fits) :
      numberTail mode numeral.negative (readWhole numeral.whole) (numeral.tail ++ rest) =
        .ok (if numeral.negative then .other else .natural (decimal numeral.whole), rest) := by
    obtain ⟨noFraction, noExponent, inWord⟩ := fits
    rw [Numeral.tail, if_pos noFraction, noExponent, exponentText, List.append_nil,
      List.nil_append, numberTail_of_ends ends, readWhole_of_lt inWord, if_pos rfl]
  cases denotes with
  | natural noSign fits => rw [ofFits fits, noSign]; rfl
  | negative signed fits => rw [ofFits fits, signed]; rfl
  | double large finite =>
      obtain ⟨negative, whole, fraction, ending, isWhole⟩ := numeral
      cases fraction with
      | cons digit fraction =>
          rw [Numeral.tail, if_neg (List.cons_ne_nil _ _), List.cons_append, List.cons_append,
            numberTail, if_pos rfl, List.append_assoc, readWhole_eq]
          exact fractionPart_complete (decimal_taken_lt whole) (List.cons_ne_nil _ _) finite ends
      | nil =>
          rw [Numeral.tail, if_pos rfl, List.nil_append]
          rw [finite_iff_of_no_fraction] at finite
          cases ending with
          | some exponent =>
              have noPoint : exponent.mark ≠ byte '.' := by
                obtain isMark | isMark := exponent.isMark <;> rw [isMark] <;> decide
              rw [exponentText, List.cons_append, numberTail, if_neg noPoint,
                if_pos (by simpa using exponent.isMark)]
              exact exponentPart_complete (readWhole_lt whole) finite ends.endsDigits
          | none =>
              have tooLarge : ¬decimal whole < UInt64.size := fun inWord => large ⟨rfl, rfl, inWord⟩
              rw [exponentText, List.nil_append, numberTail_of_ends ends,
                if_neg (readWhole_excess_ne_zero tooLarge)]
              exact scaled_complete (readWhole_lt whole) finite

theorem numberTail_sound (wanted : mode.wanted = true) (isWhole : Whole whole) {negative : Bool}
    (reads : numberTail mode negative (readWhole whole) text = .ok (number, rest)) :
    ∃ numeral : Numeral, numeral.negative = negative ∧ numeral.whole = whole ∧
      text = numeral.tail ++ rest ∧ numeral.Denotes number := by
  have ended (reads : (if (readWhole whole).2 = 0 then
        .ok (if negative then .other else .natural (readWhole whole).1, text)
      else scaled mode (readWhole whole).1 (readWhole whole).2 text) = .ok (number, rest)) :
      ∃ numeral : Numeral, numeral.negative = negative ∧ numeral.whole = whole ∧
        text = numeral.tail ++ rest ∧ numeral.Denotes number := by
    let numeral : Numeral := ⟨negative, whole, [], none, isWhole⟩
    by_cases inWord : decimal whole < UInt64.size
    · have fits : numeral.Fits := ⟨rfl, rfl, inWord⟩
      rw [readWhole_of_lt inWord, if_pos rfl, Except.ok.injEq, Prod.mk.injEq] at reads
      obtain ⟨rfl, rfl⟩ := reads
      refine ⟨numeral, rfl, rfl, rfl, ?_⟩
      cases negative with
      | true => exact .negative rfl fits
      | false => exact .natural rfl fits
    · have large : ¬numeral.Fits := fun fits => inWord fits.2.2
      rw [if_neg (readWhole_excess_ne_zero inWord)] at reads
      obtain ⟨finite, rfl, rfl⟩ := scaled_sound wanted (readWhole_lt whole) reads
      exact ⟨numeral, rfl, rfl, rfl, .double large (finite_iff_of_no_fraction.mpr finite)⟩
  unfold numberTail at reads
  split at reads
  next letter behind =>
    split at reads
    next isPoint =>
      rw [readWhole_eq] at reads
      obtain ⟨fraction, ending, nonempty, rfl, finite, rfl⟩ :=
        fractionPart_sound wanted (decimal_taken_lt whole) reads
      exact ⟨⟨negative, whole, fraction, ending, isWhole⟩, rfl, rfl,
        by simp [Numeral.tail, nonempty, isPoint], .double (fun fits => nonempty fits.1) finite⟩
    next =>
      split at reads
      next isMark =>
        obtain ⟨exponent, rfl, rfl, finite, rfl⟩ :=
          exponentPart_sound wanted (readWhole_lt whole) (by simpa using isMark) reads
        exact ⟨⟨negative, whole, [], some exponent, isWhole⟩, rfl, rfl, rfl,
          .double (fun fits => nomatch fits.2.1) (finite_iff_of_no_fraction.mpr finite)⟩
      next => exact ended reads
  next => exact ended reads

theorem number_complete (numeral : Numeral) (denotes : numeral.Denotes number)
    (ends : EndsNumber rest) :
    Json.number mode numeral.negative (numeral.unsigned ++ rest) = .ok (number, rest) := by
  rw [number_eq, Numeral.unsigned, List.append_assoc,
    wholePart_complete numeral.isWhole (numeral.endsDigits_tail ends)]
  exact numberTail_complete numeral denotes ends

theorem number_sound (wanted : mode.wanted = true) {negative : Bool}
    (reads : Json.number mode negative text = .ok (number, rest)) :
    ∃ numeral : Numeral, numeral.negative = negative ∧ text = numeral.unsigned ++ rest ∧
      numeral.Denotes number := by
  rw [number_eq] at reads
  obtain ⟨⟨values, behind⟩, readsWhole, goesOn⟩ := bind_eq_ok_iff.mp reads
  obtain ⟨whole, isWhole, rfl, rfl⟩ := wholePart_sound readsWhole
  obtain ⟨numeral, isSigned, rfl, rfl, denotes⟩ := numberTail_sound wanted isWhole goesOn
  exact ⟨numeral, isSigned, by rw [Numeral.unsigned, List.append_assoc], denotes⟩

end Parts

end CpuScheduling.Json
