import CpuScheduling.Proofs.Json.Elements
import CpuScheduling.Proofs.Json.Numerals

/-!
JSON texts.  `Writes` is the grammar: the ways to write a value, with at most so many arrays and
objects around one another.  What is read is a value that the grammar writes, and every value that
it writes is read.
-/

namespace CpuScheduling.Json

def Number.value : Number → Value
  | natural value => .natural value
  | other => .otherNumber

inductive Scalar : Value → Bytes → Prop
  | null : Scalar .null (ascii "null")
  | yes : Scalar (.bool true) (ascii "true")
  | no : Scalar (.bool false) (ascii "false")
  | string {letters : List Char} {used : Bytes} (quoted : Quoted letters used) :
      Scalar (.string (encode letters)) (byte '"' :: used ++ [byte '"'])
  | number {numeral : Numeral} {number : Number} (denotes : numeral.Denotes number) :
      Scalar number.value numeral.text

/-- How a value is written, if `inner` says how those in arrays and objects are. -/
inductive Nests (inner : Value → Bytes → Prop) : Value → Bytes → Prop
  | scalar {value : Value} {used : Bytes} (isScalar : Scalar value used) : Nests inner value used
  | array {values : List Value} {used : Bytes} (isElements : Elements inner values used) :
      Nests inner (.array values) (byte '[' :: used ++ [byte ']'])
  | object {members : List (Bytes × Value)} {used : Bytes}
      (isElements : Elements (Member inner) members used) :
      Nests inner (.object members) (byte '{' :: used ++ [byte '}'])

/-- How a value is written with at most so many arrays and objects around one another. -/
def Writes : Nat → Value → Bytes → Prop
  | 0 => Scalar
  | depth + 1 => Nests (Writes depth)

/-- A text that is one value, with blanks around it. -/
inductive IsText : Value → Bytes → Prop
  | mk {value : Value} {before used behind : Bytes} (isBefore : Blank before)
      (writes : Writes maxDepth value used) (isBehind : Blank behind) :
      IsText value (before ++ used ++ behind)

section Scalars

variable {mode : Mode} {letter : UInt8} {letters text used rest : Bytes} {result : Value}

theorem EndsValue.endsNumber (ends : EndsValue rest) : EndsNumber rest := by
  have blanks {next : UInt8} (blank : isBlank next = true) :
      next = byte ' ' ∨ next = byte '\n' ∨ next = byte '\r' ∨ next = byte '\t' := by
    simpa [isBlank, or_assoc] using blank
  intro next isNext
  obtain blank | rfl | rfl | rfl := ends next isNext
  · obtain rfl | rfl | rfl | rfl := blanks blank <;> decide
  · decide
  · decide
  · decide

theorem literal_complete (result : Value) (letters rest : Bytes) :
    literal result letters (letters ++ rest) = .ok (result, rest) := by
  induction letters with
  | nil => rfl
  | cons letter letters inductionHypothesis =>
      rw [List.cons_append, literal, if_pos rfl]
      exact inductionHypothesis

theorem literal_sound {value : Value} (reads : literal value letters text = .ok (result, rest)) :
    result = value ∧ text = letters ++ rest := by
  induction letters generalizing text with
  | nil =>
      cases reads
      exact ⟨rfl, rfl⟩
  | cons letter letters inductionHypothesis =>
      cases text with
      | nil => cases reads
      | cons next text =>
          rw [literal] at reads
          split_ifs at reads with same
          obtain ⟨rfl, rfl⟩ := inductionHypothesis reads
          exact ⟨rfl, by rw [same]; rfl⟩

theorem Numeral.exists_unsigned (numeral : Numeral) :
    ∃ digit more, numeral.unsigned = figure digit :: more := by
  obtain ⟨negative, whole, fraction, ending, isWhole⟩ := numeral
  cases isWhole <;> exact ⟨_, _, rfl⟩

def OpensScalar (first : UInt8) : Prop :=
  isBlank first = false ∧ first ≠ byte '[' ∧ first ≠ byte ']' ∧ first ≠ byte '{' ∧ first ≠ byte '}'

instance (first : UInt8) : Decidable (OpensScalar first) :=
  inferInstanceAs (Decidable (_ ∧ _))

theorem opensScalar_figure : ∀ digit, OpensScalar (figure digit) := by
  decide

def numeric (result : Except Stop (Number × Bytes)) : Except Stop (Value × Bytes) :=
  result.map fun (number, rest) => (number.value, rest)

theorem numeric_eq (result : Except Stop (Number × Bytes)) : numeric result =
    result.map fun (number, rest) =>
      match number with
      | .natural value => (.natural value, rest)
      | .other => (.otherNumber, rest) := by
  rcases result with stop | ⟨number, rest⟩
  · rfl
  · cases number <;> rfl

theorem scalar_eq (mode : Mode) (letter : UInt8) (rest : Bytes) : scalar mode letter rest =
    if letter = byte 'n' then literal .null (ascii "ull") rest
    else if letter = byte 't' then literal (.bool true) (ascii "rue") rest
    else if letter = byte 'f' then literal (.bool false) (ascii "alse") rest
    else if letter = byte '"' then
      (string mode.wanted rest).map fun (content, rest) => (.string content, rest)
    else if letter = byte '-' then numeric (number mode true rest)
    else if isDigit letter then numeric (number mode false (letter :: rest))
    else .error (.on .expectedValue (letter :: rest)) := by
  simp only [numeric_eq]
  rfl

theorem scalar_figure (mode : Mode) (digit : Fin 10) (text : Bytes) :
    scalar mode (figure digit) text = numeric (number mode false (figure digit :: text)) := by
  have noOther : ∀ digit, figure digit ≠ byte 'n' ∧ figure digit ≠ byte 't' ∧
      figure digit ≠ byte 'f' ∧ figure digit ≠ byte '"' ∧ figure digit ≠ byte '-' := by
    decide
  obtain ⟨noNull, noTrue, noFalse, noQuote, noMinus⟩ := noOther digit
  rw [scalar_eq, if_neg noNull, if_neg noTrue, if_neg noFalse, if_neg noQuote, if_neg noMinus,
    if_pos (isDigit_figure digit)]

theorem scalar_minus (mode : Mode) (text : Bytes) :
    scalar mode (byte '-') text = numeric (number mode true text) := by
  rw [scalar_eq, if_neg (by decide), if_neg (by decide), if_neg (by decide), if_neg (by decide),
    if_pos rfl]

theorem scalar_quote (wanted : mode.wanted = true) (text : Bytes) : scalar mode (byte '"') text =
    (string true text).map fun (content, rest) => (.string content, rest) := by
  rw [scalar_eq, if_neg (by decide), if_neg (by decide), if_neg (by decide), if_pos rfl, wanted]

theorem scalar_complete (wanted : mode.wanted = true) (isScalar : Scalar result used)
    (ends : EndsValue rest) : ∃ first tail, used = first :: tail ∧ OpensScalar first ∧
      scalar mode first (tail ++ rest) = .ok (result, rest) := by
  cases isScalar with
  | null => exact ⟨byte 'n', _, rfl, by decide, literal_complete _ (ascii "ull") rest⟩
  | yes => exact ⟨byte 't', _, rfl, by decide, literal_complete _ (ascii "rue") rest⟩
  | no => exact ⟨byte 'f', _, rfl, by decide, literal_complete _ (ascii "alse") rest⟩
  | @string letters used quoted =>
      refine ⟨byte '"', used ++ [byte '"'], rfl, by decide, ?_⟩
      rw [List.append_assoc, scalar_quote wanted, List.singleton_append, string_complete quoted]
      rfl
  | @number numeral number denotes =>
      have reads : Json.number mode numeral.negative (numeral.unsigned ++ rest) =
          .ok (number, rest) := number_complete numeral denotes ends.endsNumber
      obtain ⟨digit, more, same⟩ := numeral.exists_unsigned
      rw [Numeral.text]
      cases isNegative : numeral.negative with
      | true =>
          rw [isNegative] at reads
          exact ⟨byte '-', _, rfl, by decide, by rw [scalar_minus, reads]; rfl⟩
      | false =>
          rw [isNegative, same, List.cons_append] at reads
          exact ⟨figure digit, more, same, opensScalar_figure digit, by
            rw [scalar_figure, reads]; rfl⟩

theorem scalar_sound (wanted : mode.wanted = true)
    (reads : scalar mode letter text = .ok (result, rest)) :
    ∃ used, letter :: text = used ++ rest ∧ Scalar result used := by
  have ofNumber {negative : Bool} {text : Bytes}
      (reads : numeric (number mode negative text) = .ok (result, rest)) :
      ∃ numeral : Numeral, numeral.negative = negative ∧ text = numeral.unsigned ++ rest ∧
        Scalar result numeral.text := by
    obtain ⟨⟨number, left⟩, readsNumber, ends⟩ := map_eq_ok_iff.mp reads
    cases ends
    obtain ⟨numeral, isSigned, whole, denotes⟩ := number_sound wanted readsNumber
    exact ⟨numeral, isSigned, whole, .number denotes⟩
  rw [scalar_eq] at reads
  split_ifs at reads with isNull isTrue isFalse isString isNegative isDigit
  · obtain ⟨rfl, rfl⟩ := literal_sound reads
    exact ⟨ascii "null", by rw [isNull]; rfl, .null⟩
  · obtain ⟨rfl, rfl⟩ := literal_sound reads
    exact ⟨ascii "true", by rw [isTrue]; rfl, .yes⟩
  · obtain ⟨rfl, rfl⟩ := literal_sound reads
    exact ⟨ascii "false", by rw [isFalse]; rfl, .no⟩
  · rw [wanted] at reads
    obtain ⟨⟨content, left⟩, readsString, ends⟩ := map_eq_ok_iff.mp reads
    cases ends
    obtain ⟨letters, used, rfl, rfl, quoted⟩ := string_sound readsString
    exact ⟨_, by rw [isString]; simp, .string quoted⟩
  · obtain ⟨numeral, isSigned, rfl, isScalar⟩ := ofNumber reads
    exact ⟨numeral.text, by rw [Numeral.text, isSigned, isNegative]; rfl, isScalar⟩
  · obtain ⟨numeral, isSigned, whole, isScalar⟩ := ofNumber reads
    exact ⟨numeral.text, by rw [Numeral.text, isSigned]; exact whole, isScalar⟩

theorem scalar_natural_iff {number : Nat} :
    Scalar (.natural number) used ↔
      ∃ whole, Whole whole ∧ decimal whole = number ∧ number < UInt64.size ∧
        used = figures whole := by
  constructor
  · intro isScalar
    generalize same : Value.natural number = value at isScalar
    cases isScalar with
    | @number numeral number denotes =>
        cases denotes with
        | natural noSign fits =>
            obtain ⟨noFraction, noExponent, inWord⟩ := fits
            cases same
            refine ⟨numeral.whole, numeral.isWhole, rfl, inWord, ?_⟩
            simp [Numeral.text, noSign, Numeral.unsigned, Numeral.tail, noFraction, noExponent,
              exponentText]
        | negative | double => cases same
    | null | yes | no | string => cases same
  · rintro ⟨whole, isWhole, rfl, inWord, rfl⟩
    let numeral : Numeral := ⟨false, whole, [], none, isWhole⟩
    have denotes : numeral.Denotes (.natural (decimal whole)) := .natural rfl ⟨rfl, rfl, inWord⟩
    have plain : numeral.text = figures whole := List.append_nil (figures whole)
    exact plain ▸ .number denotes

end Scalars

section Values

variable {mode : Mode} {first : UInt8} {text used rest : Bytes} {result : Value} {depth : Nat}

theorem value_skips {blank : Bytes} (isBlank : Blank blank) (depth : Nat) (text : Bytes) :
    value mode depth (blank ++ text) = value mode depth text := by
  rw [value, skipBlank_append isBlank, value]

theorem value_of_opensScalar (opens : OpensScalar first) (depth : Nat) (rest : Bytes) :
    value mode depth (first :: rest) = scalar mode first rest := by
  obtain ⟨noBlank, noBracket, -, noBrace, -⟩ := opens
  rw [value, skipBlank_cons noBlank]
  simp only [if_neg noBracket, if_neg noBrace]

theorem value_array (depth : Nat) (rest : Bytes) :
    value mode (depth + 1) (byte '[' :: rest) =
      (elements (byte ']') .endInList .expectedListCommaOrEnd (value mode depth) rest).map
        fun (values, rest) => (.array values, rest) := by
  rw [value, skipBlank_cons (by decide), ← items_eq]
  rfl

theorem value_object (depth : Nat) (rest : Bytes) :
    value mode (depth + 1) (byte '{' :: rest) =
      (elements (byte '}') .endInObject .expectedObjectCommaOrEnd
        (member mode.wanted fun _ => value mode depth) rest).map
        fun (entries, rest) => (.object entries, rest) := by
  rw [value, skipBlank_cons (by decide), ← members_eq]
  rfl

theorem Scalar.readsAll (wanted : mode.wanted = true) (depth : Nat) :
    ReadsAll Scalar (value mode depth) := by
  intro result used rest isScalar ends
  obtain ⟨first, tail, rfl, opens, reads⟩ := scalar_complete wanted isScalar ends
  rw [List.cons_append, value_of_opensScalar opens, reads]

theorem Scalar.starts (isScalar : Scalar result used) : Starts (byte ']') used := by
  have wanted : ({} : Mode).wanted = true := rfl
  have ends : EndsValue [] := nofun
  obtain ⟨first, tail, rfl, ⟨noBlank, -, noClose, -⟩, -⟩ := scalar_complete wanted isScalar ends
  exact ⟨first, tail, rfl, noBlank, noClose⟩

theorem Writes.starts (writes : Writes depth result used) : Starts (byte ']') used := by
  cases depth with
  | zero => exact writes.starts
  | succ depth =>
      cases writes with
      | scalar isScalar => exact isScalar.starts
      | array => exact ⟨_, _, rfl, by decide⟩
      | object => exact ⟨_, _, rfl, by decide⟩

theorem bracketed_append (opening closing : UInt8) (used rest : Bytes) :
    opening :: used ++ [closing] ++ rest = opening :: (used ++ closing :: rest) := by
  simp

theorem value_readsAll (wanted : mode.wanted = true) (depth : Nat) :
    ReadsAll (Writes depth) (value mode depth) := by
  induction depth with
  | zero => exact Scalar.readsAll wanted 0
  | succ depth inductionHypothesis =>
      intro result used rest writes ends
      cases writes with
      | scalar isScalar => exact Scalar.readsAll wanted (depth + 1) result used rest isScalar ends
      | @array values used isElements =>
          have starts (item : Value) (used : Bytes) : Writes depth item used →
              Starts (byte ']') used := Writes.starts
          rw [bracketed_append, value_array,
            elements_complete (.inl rfl) starts inductionHypothesis isElements]
          rfl
      | @object members used isElements =>
          have starts (entry : Bytes × Value) (used : Bytes) :
              Member (Writes depth) entry used → Starts (byte '}') used := Member.starts
          have readsAll := member_readsAll (fun _ => inductionHypothesis) fun _ _ text isBlank =>
            value_skips isBlank depth text
          rw [bracketed_append, value_object, wanted,
            elements_complete (.inr rfl) starts readsAll isElements]
          rfl

/-- What reading a value does behind blanks: it reads an array, an object or a scalar. -/
theorem value_cases (reads : value mode depth text = .ok (result, rest)) :
    ∃ blank first behind, Blank blank ∧ text = blank ++ first :: behind ∧
      ((∃ less values, depth = less + 1 ∧ first = byte '[' ∧ result = .array values ∧
          elements (byte ']') .endInList .expectedListCommaOrEnd (value mode less) behind =
            .ok (values, rest)) ∨
        (∃ less entries, depth = less + 1 ∧ first = byte '{' ∧ result = .object entries ∧
          elements (byte '}') .endInObject .expectedObjectCommaOrEnd
            (member mode.wanted fun _ => value mode less) behind = .ok (entries, rest)) ∨
        scalar mode first behind = .ok (result, rest)) := by
  unfold value at reads
  split at reads
  next => cases reads
  next first behind goesOn =>
    obtain ⟨blank, isBlank, rfl⟩ := exists_of_skipBlank goesOn
    refine ⟨blank, first, behind, isBlank, rfl, ?_⟩
    cases depth with
    | zero =>
        split_ifs at reads
        exact .inr (.inr reads)
    | succ less =>
        split_ifs at reads with isArray isObject
        · obtain ⟨⟨values, left⟩, readsItems, ends⟩ := map_eq_ok_iff.mp reads
          cases ends
          rw [items_eq] at readsItems
          exact .inl ⟨less, values, rfl, isArray, rfl, readsItems⟩
        · obtain ⟨⟨entries, left⟩, readsMembers, ends⟩ := map_eq_ok_iff.mp reads
          cases ends
          rw [members_eq] at readsMembers
          exact .inr (.inl ⟨less, entries, rfl, isObject, rfl, readsMembers⟩)
        · exact .inr (.inr reads)

theorem value_readsOnly (wanted : mode.wanted = true) (depth : Nat) :
    ReadsOnly (Writes depth) (value mode depth) := by
  induction depth with
  | zero =>
      intro text result rest reads
      obtain ⟨blank, first, behind, isBlank, rfl, array | object | scalar⟩ := value_cases reads
      · obtain ⟨_, _, ⟨⟩, _⟩ := array
      · obtain ⟨_, _, ⟨⟩, _⟩ := object
      · obtain ⟨used, whole, isScalar⟩ := scalar_sound wanted scalar
        exact ⟨blank, used, isBlank, by rw [whole, List.append_assoc], isScalar⟩
  | succ depth inductionHypothesis =>
      intro text result rest reads
      obtain ⟨blank, first, behind, isBlank, rfl, array | object | scalar⟩ := value_cases reads
      · obtain ⟨_, values, ⟨⟩, rfl, rfl, readsItems⟩ := array
        obtain ⟨used, rfl, isElements⟩ := elements_sound inductionHypothesis readsItems
        exact ⟨blank, _, isBlank, by simp, .array isElements⟩
      · obtain ⟨_, entries, ⟨⟩, rfl, rfl, readsMembers⟩ := object
        rw [wanted] at readsMembers
        have readsOnly := member_readsOnly fun _ => inductionHypothesis
        obtain ⟨used, rfl, isElements⟩ := elements_sound readsOnly readsMembers
        exact ⟨blank, _, isBlank, by simp, .object isElements⟩
      · obtain ⟨used, whole, isScalar⟩ := scalar_sound wanted scalar
        exact ⟨blank, used, isBlank, by rw [whole, List.append_assoc], .scalar isScalar⟩

end Values

section Texts

variable {text : Bytes} {result : Value}

theorem finish_eq_ok_iff : finish text = .ok () ↔ Blank text := by
  constructor
  · intro finished
    obtain ⟨blank, isBlank, whole⟩ := exists_blank text
    unfold finish at finished
    split at finished
    next ended => rwa [whole, ended, List.append_nil]
    next => cases finished
  · intro isBlank
    have skipped := skipBlank_append isBlank []
    rw [List.append_nil] at skipped
    rw [finish, skipped]
    rfl

/-- A text is read to its end as the value that it writes, and no other text is. -/
theorem isText_iff {mode : Mode} (wanted : mode.wanted = true) :
    IsText result text ↔ ∃ rest, value mode maxDepth text = .ok (result, rest) ∧
      finish rest = .ok () := by
  constructor
  · rintro ⟨isBefore, writes, isBehind⟩
    have ends := isBehind.endsValue (show EndsValue [] from nofun)
    rw [List.append_nil] at ends
    refine ⟨_, ?_, finish_eq_ok_iff.mpr isBehind⟩
    rw [List.append_assoc, value_skips isBefore]
    exact value_readsAll wanted maxDepth _ _ _ writes ends
  · rintro ⟨rest, reads, finished⟩
    obtain ⟨blank, used, isBlank, rfl, writes⟩ := value_readsOnly wanted maxDepth _ _ _ reads
    exact .mk isBlank writes (finish_eq_ok_iff.mp finished)

end Texts

end CpuScheduling.Json
