import CpuScheduling.Json.Text
import Mathlib.Tactic.SplitIfs

/-!
Texts in UTF-8.  The bytes that are UTF-8 to the end are the encodings of texts, and a code that
is no surrogate has the bytes of its character.
-/

namespace CpuScheduling.Json

def encode (letters : List Char) : Bytes :=
  letters.flatMap String.utf8EncodeChar

@[simp]
theorem encode_nil : encode [] = [] := rfl

@[simp]
theorem encode_cons (letter : Char) (letters : List Char) :
    encode (letter :: letters) = String.utf8EncodeChar letter ++ encode letters :=
  rfl

theorem secondRange?_eq (first : UInt8) : secondRange? first =
    if 0xC2 ≤ first.toNat ∧ first.toNat ≤ 0xDF then some (2, 0x80, 0xBF)
    else if first.toNat = 0xE0 then some (3, 0xA0, 0xBF)
    else if first.toNat = 0xED then some (3, 0x80, 0x9F)
    else if 0xE1 ≤ first.toNat ∧ first.toNat ≤ 0xEF then some (3, 0x80, 0xBF)
    else if first.toNat = 0xF0 then some (4, 0x90, 0xBF)
    else if 0xF1 ≤ first.toNat ∧ first.toNat ≤ 0xF3 then some (4, 0x80, 0xBF)
    else if first.toNat = 0xF4 then some (4, 0x80, 0x8F)
    else none := by
  simp [secondRange?, UInt8.le_iff_toNat_le, ← UInt8.toNat_inj]

theorem isContinuation_iff (letter : UInt8) :
    isContinuation letter = true ↔ 0x80 ≤ letter.toNat ∧ letter.toNat ≤ 0xBF := by
  simp [isContinuation, UInt8.le_iff_toNat_le]

/-- The first bytes of characters, and what their second bytes may be. -/
theorem cases_of_secondRange? {first low high : UInt8} {count : Nat}
    (starts : secondRange? first = some (count, low, high)) :
    0x80 ≤ low.toNat ∧ high.toNat ≤ 0xBF ∧
      (count = 2 ∧ 0xC2 ≤ first.toNat ∧ first.toNat ≤ 0xDF ∨
        count = 3 ∧ 0xE0 ≤ first.toNat ∧ first.toNat ≤ 0xEF ∧
          (first.toNat = 0xE0 → 0xA0 ≤ low.toNat) ∧ (first.toNat = 0xED → high.toNat ≤ 0x9F) ∨
        count = 4 ∧ 0xF0 ≤ first.toNat ∧ first.toNat ≤ 0xF4 ∧
          (first.toNat = 0xF0 → 0x90 ≤ low.toNat) ∧ (first.toNat = 0xF4 → high.toNat ≤ 0x8F)) := by
  rw [secondRange?_eq] at starts
  split_ifs at starts <;> cases starts <;> simp <;> omega

theorem not_ascii_of_secondRange? {first : UInt8} {range : Nat × UInt8 × UInt8}
    (starts : secondRange? first = some range) : ¬first < 0x80 := by
  intro small
  have ascii : first.toNat < 0x80 := UInt8.lt_iff_toNat_lt.mp small
  have range := cases_of_secondRange? starts
  omega

section Sequences

variable {first second third fourth low high : UInt8} {rest : Bytes}

theorem notUnicodeFrom_one (small : first < 0x80) :
    notUnicodeFrom (first :: rest) = notUnicodeFrom rest := by
  rw [notUnicodeFrom.eq_def]
  exact if_pos small

theorem notUnicodeFrom_two (starts : secondRange? first = some (2, low, high)) :
    notUnicodeFrom (first :: second :: rest) =
      if low ≤ second && second ≤ high then notUnicodeFrom rest else first :: second :: rest := by
  rw [notUnicodeFrom.eq_def]
  simp only [if_neg (not_ascii_of_secondRange? starts), starts]

theorem notUnicodeFrom_three (starts : secondRange? first = some (3, low, high)) :
    notUnicodeFrom (first :: second :: third :: rest) =
      if low ≤ second && second ≤ high && isContinuation third then notUnicodeFrom rest
      else first :: second :: third :: rest := by
  rw [notUnicodeFrom.eq_def]
  simp only [if_neg (not_ascii_of_secondRange? starts), starts]

theorem notUnicodeFrom_four (starts : secondRange? first = some (4, low, high)) :
    notUnicodeFrom (first :: second :: third :: fourth :: rest) =
      if low ≤ second && second ≤ high && isContinuation third && isContinuation fourth then
        notUnicodeFrom rest
      else first :: second :: third :: fourth :: rest := by
  rw [notUnicodeFrom.eq_def]
  simp only [if_neg (not_ascii_of_secondRange? starts), starts]

end Sequences

section Ranges

variable (first : UInt8) (second : Nat)

theorem exists_range_of_three (isFirst : 0xE0 ≤ first.toNat ∧ first.toNat ≤ 0xEF)
    (isSecond : 0x80 ≤ second ∧ second ≤ 0xBF) (notShort : first.toNat = 0xE0 → 0xA0 ≤ second)
    (noSurrogate : first.toNat = 0xED → second ≤ 0x9F) :
    ∃ low high : UInt8, secondRange? first = some (3, low, high) ∧ low.toNat ≤ second ∧
      second ≤ high.toNat := by
  rw [secondRange?_eq, if_neg (by omega)]
  by_cases lowest : first.toNat = 0xE0
  · exact ⟨_, _, if_pos lowest, notShort lowest, isSecond.2⟩
  rw [if_neg lowest]
  by_cases surrogates : first.toNat = 0xED
  · exact ⟨_, _, if_pos surrogates, isSecond.1, noSurrogate surrogates⟩
  rw [if_neg surrogates]
  exact ⟨_, _, if_pos (by omega), isSecond.1, isSecond.2⟩

theorem exists_range_of_four (isFirst : 0xF0 ≤ first.toNat ∧ first.toNat ≤ 0xF4)
    (isSecond : 0x80 ≤ second ∧ second ≤ 0xBF) (notShort : first.toNat = 0xF0 → 0x90 ≤ second)
    (notBeyond : first.toNat = 0xF4 → second ≤ 0x8F) :
    ∃ low high : UInt8, secondRange? first = some (4, low, high) ∧ low.toNat ≤ second ∧
      second ≤ high.toNat := by
  rw [secondRange?_eq, if_neg (by omega), if_neg (by omega), if_neg (by omega), if_neg (by omega)]
  by_cases lowest : first.toNat = 0xF0
  · exact ⟨_, _, if_pos lowest, notShort lowest, isSecond.2⟩
  rw [if_neg lowest]
  by_cases highest : first.toNat = 0xF4
  · rw [if_neg (by omega)]
    exact ⟨_, _, if_pos highest, isSecond.1, notBeyond highest⟩
  · exact ⟨_, _, if_pos (by omega), isSecond.1, isSecond.2⟩

end Ranges

theorem notUnicodeFrom_letter (letter : Char) (rest : Bytes) :
    notUnicodeFrom (String.utf8EncodeChar letter ++ rest) = notUnicodeFrom rest := by
  have valid := letter.valid
  simp only [UInt32.isValidChar, Nat.isValidChar] at valid
  unfold String.utf8EncodeChar
  dsimp only
  generalize letter.val.toNat = code at *
  split_ifs with one two three
  · refine notUnicodeFrom_one ?_
    rw [UInt8.lt_iff_toNat_lt, UInt8.toNat_ofNat']
    simp
    omega
  · have starts : secondRange? (UInt8.ofNat (code / 64 % 32 + 192)) = some (2, 0x80, 0xBF) := by
      rw [secondRange?_eq, UInt8.toNat_ofNat', if_pos (by omega)]
    rw [List.cons_append, List.cons_append, notUnicodeFrom_two starts, List.nil_append, if_pos]
    simp [UInt8.le_iff_toNat_le, UInt8.toNat_ofNat']
    omega
  · have isFirst : (UInt8.ofNat (code / 4096 % 16 + 224)).toNat = code / 4096 % 16 + 224 := by
      rw [UInt8.toNat_ofNat']
      omega
    obtain ⟨low, high, starts, within⟩ := exists_range_of_three
      (UInt8.ofNat (code / 4096 % 16 + 224)) (code / 64 % 64 + 128) (by omega) (by omega) (by omega)
      (by omega)
    simp only [List.cons_append, List.nil_append]
    rw [notUnicodeFrom_three starts, if_pos]
    simp [UInt8.le_iff_toNat_le, UInt8.toNat_ofNat', isContinuation_iff]
    omega
  · have isFirst : (UInt8.ofNat (code / 262144 % 8 + 240)).toNat = code / 262144 % 8 + 240 := by
      rw [UInt8.toNat_ofNat']
      omega
    obtain ⟨low, high, starts, within⟩ := exists_range_of_four
      (UInt8.ofNat (code / 262144 % 8 + 240)) (code / 4096 % 64 + 128) (by omega) (by omega)
      (by omega) (by omega)
    simp only [List.cons_append, List.nil_append]
    rw [notUnicodeFrom_four starts, if_pos]
    simp [UInt8.le_iff_toNat_le, UInt8.toNat_ofNat', isContinuation_iff]
    omega

theorem toNat_val_ofNat {code : Nat} (valid : code.isValidChar) :
    (Char.ofNat code).val.toNat = code := by
  rw [Char.ofNat, dif_pos valid]
  rfl

/-- The character of a code that is no surrogate has the bytes that a text has for the code. -/
theorem utf8_of_isValidChar {code : Nat} (valid : code.isValidChar) :
    utf8 code = String.utf8EncodeChar (Char.ofNat code) := by
  have bound : code < 0x110000 := by
    simp only [Nat.isValidChar] at valid
    omega
  have last : 0x80 + code / 2 ^ 0 % 0x40 = code % 64 + 128 := by omega
  have third : 0x80 + code / 2 ^ 6 % 0x40 = code / 64 % 64 + 128 := by omega
  have second : 0x80 + code / 2 ^ 12 % 0x40 = code / 4096 % 64 + 128 := by omega
  unfold utf8 String.utf8EncodeChar
  rw [toNat_val_ofNat valid]
  simp only [Nat.shiftRight_eq_div_pow, last, third, second]
  by_cases one : code < 0x80
  · rw [if_pos one, if_pos (show code ≤ 127 by omega)]
  rw [if_neg one, if_neg (show ¬code ≤ 127 by omega)]
  by_cases two : code < 0x800
  · have first : 0xC0 + code / 2 ^ 6 = code / 64 % 32 + 192 := by omega
    rw [if_pos two, if_pos (show code ≤ 2047 by omega), first]
  rw [if_neg two, if_neg (show ¬code ≤ 2047 by omega)]
  by_cases three : code < 0x10000
  · have first : 0xE0 + code / 2 ^ 12 = code / 4096 % 16 + 224 := by omega
    rw [if_pos three, if_pos (show code ≤ 65535 by omega), first]
  · have first : 0xF0 + code / 2 ^ 18 = code / 262144 % 8 + 240 := by omega
    rw [if_neg three, if_neg (show ¬code ≤ 65535 by omega), first]

section Letters

variable {first second third fourth low high : UInt8}

theorem range_of_two (starts : secondRange? first = some (2, low, high)) :
    0xC2 ≤ first.toNat ∧ first.toNat ≤ 0xDF ∧ 0x80 ≤ low.toNat ∧ high.toNat ≤ 0xBF := by
  have range := cases_of_secondRange? starts
  omega

theorem range_of_three (starts : secondRange? first = some (3, low, high)) :
    0xE0 ≤ first.toNat ∧ first.toNat ≤ 0xEF ∧ 0x80 ≤ low.toNat ∧ high.toNat ≤ 0xBF ∧
      (first.toNat = 0xE0 → 0xA0 ≤ low.toNat) ∧ (first.toNat = 0xED → high.toNat ≤ 0x9F) := by
  have range := cases_of_secondRange? starts
  omega

theorem range_of_four (starts : secondRange? first = some (4, low, high)) :
    0xF0 ≤ first.toNat ∧ first.toNat ≤ 0xF4 ∧ 0x80 ≤ low.toNat ∧ high.toNat ≤ 0xBF ∧
      (first.toNat = 0xF0 → 0x90 ≤ low.toNat) ∧ (first.toNat = 0xF4 → high.toNat ≤ 0x8F) := by
  have range := cases_of_secondRange? starts
  omega

theorem exists_letter_of_utf8 (code : Nat) {bytes : Bytes} (valid : code.isValidChar)
    (spells : utf8 code = bytes) : ∃ letter, String.utf8EncodeChar letter = bytes :=
  ⟨Char.ofNat code, (utf8_of_isValidChar valid).symm.trans spells⟩

theorem exists_letter_of_one (small : first < 0x80) :
    ∃ letter, String.utf8EncodeChar letter = [first] := by
  have ascii : first.toNat < 0x80 := UInt8.lt_iff_toNat_lt.mp small
  refine exists_letter_of_utf8 first.toNat (.inl (by omega)) ?_
  rw [utf8, if_pos ascii, UInt8.ofNat_toNat]

theorem exists_letter_of_two (starts : secondRange? first = some (2, low, high))
    (within : low.toNat ≤ second.toNat ∧ second.toNat ≤ high.toNat) :
    ∃ letter, String.utf8EncodeChar letter = [first, second] := by
  have range := range_of_two starts
  refine exists_letter_of_utf8 ((first.toNat - 0xC0) * 0x40 + (second.toNat - 0x80))
    (.inl (by omega)) ?_
  rw [utf8, if_neg (by omega), if_pos (by omega)]
  simp only [Nat.shiftRight_eq_div_pow, List.cons.injEq, and_true, ← UInt8.toNat_inj,
    UInt8.toNat_ofNat']
  omega

theorem exists_letter_of_three (starts : secondRange? first = some (3, low, high))
    (within : low.toNat ≤ second.toNat ∧ second.toNat ≤ high.toNat)
    (continues : 0x80 ≤ third.toNat ∧ third.toNat ≤ 0xBF) :
    ∃ letter, String.utf8EncodeChar letter = [first, second, third] := by
  have range := range_of_three starts
  refine exists_letter_of_utf8
    ((first.toNat - 0xE0) * 0x1000 + (second.toNat - 0x80) * 0x40 + (third.toNat - 0x80))
    (by simp only [Nat.isValidChar]; omega) ?_
  rw [utf8, if_neg (by omega), if_neg (by omega), if_pos (by omega)]
  simp only [Nat.shiftRight_eq_div_pow, List.cons.injEq, and_true, ← UInt8.toNat_inj,
    UInt8.toNat_ofNat']
  omega

theorem exists_letter_of_four (starts : secondRange? first = some (4, low, high))
    (within : low.toNat ≤ second.toNat ∧ second.toNat ≤ high.toNat)
    (continues : 0x80 ≤ third.toNat ∧ third.toNat ≤ 0xBF)
    (ends : 0x80 ≤ fourth.toNat ∧ fourth.toNat ≤ 0xBF) :
    ∃ letter, String.utf8EncodeChar letter = [first, second, third, fourth] := by
  have range := range_of_four starts
  refine exists_letter_of_utf8
    ((first.toNat - 0xF0) * 0x40000 + (second.toNat - 0x80) * 0x1000 +
      (third.toNat - 0x80) * 0x40 + (fourth.toNat - 0x80)) (by simp only [Nat.isValidChar]; omega) ?_
  rw [utf8, if_neg (by omega), if_neg (by omega), if_neg (by omega)]
  simp only [Nat.shiftRight_eq_div_pow, List.cons.injEq, and_true, ← UInt8.toNat_inj,
    UInt8.toNat_ofNat']
  omega

end Letters

theorem exists_letter {first : UInt8} {text : Bytes} (unicode : notUnicodeFrom (first :: text) = []) :
    ∃ letter tail rest, String.utf8EncodeChar letter = first :: tail ∧ text = tail ++ rest ∧
      (∀ next ∈ tail, isContinuation next = true) ∧ notUnicodeFrom rest = [] := by
  by_cases ascii : first < 0x80
  · obtain ⟨letter, spells⟩ := exists_letter_of_one ascii
    rw [notUnicodeFrom_one ascii] at unicode
    exact ⟨letter, [], text, spells, rfl, by simp, unicode⟩
  rw [notUnicodeFrom.eq_def] at unicode
  simp only [if_neg ascii] at unicode
  split at unicode
  next low high second rest starts =>
    obtain ⟨_, _, atLeast, atMost⟩ := range_of_two starts
    split_ifs at unicode with within
    simp only [Bool.and_eq_true, decide_eq_true_eq, UInt8.le_iff_toNat_le] at within
    obtain ⟨letter, spells⟩ := exists_letter_of_two starts within
    refine ⟨letter, [second], rest, spells, rfl, ?_, unicode⟩
    simp only [List.mem_singleton, forall_eq, isContinuation_iff]
    omega
  next low high second third rest starts =>
    obtain ⟨_, _, atLeast, atMost, _⟩ := range_of_three starts
    split_ifs at unicode with within
    simp only [Bool.and_eq_true, decide_eq_true_eq, UInt8.le_iff_toNat_le, isContinuation_iff]
      at within
    obtain ⟨letter, spells⟩ := exists_letter_of_three starts within.1 within.2
    refine ⟨letter, [second, third], rest, spells, rfl, ?_, unicode⟩
    simp only [List.forall_mem_cons, isContinuation_iff]
    simp
    omega
  next low high second third fourth rest starts =>
    obtain ⟨_, _, atLeast, atMost, _⟩ := range_of_four starts
    split_ifs at unicode with within
    simp only [Bool.and_eq_true, decide_eq_true_eq, UInt8.le_iff_toNat_le, isContinuation_iff]
      at within
    obtain ⟨⟨within, third⟩, fourth⟩ := within
    obtain ⟨letter, spells⟩ := exists_letter_of_four starts within third fourth
    refine ⟨letter, _, rest, spells, rfl, ?_, unicode⟩
    simp only [List.forall_mem_cons, isContinuation_iff]
    simp
    omega
  next => cases unicode

theorem not_isContinuation_of_letter {letter : Char} {first : UInt8} {tail : Bytes}
    (spells : String.utf8EncodeChar letter = first :: tail) : isContinuation first = false := by
  refine Bool.eq_false_iff.mpr fun continues => ?_
  obtain ⟨atLeast, atMost⟩ := (isContinuation_iff first).mp continues
  have starts : secondRange? first = none := by
    rw [secondRange?_eq, if_neg (by omega), if_neg (by omega), if_neg (by omega), if_neg (by omega),
      if_neg (by omega), if_neg (by omega), if_neg (by omega)]
  have unicode := notUnicodeFrom_letter letter []
  rw [spells, List.append_nil, notUnicodeFrom.eq_def] at unicode
  simp only [starts, UInt8.lt_iff_toNat_lt] at unicode
  rw [if_neg (by simp; omega)] at unicode
  cases unicode

theorem utf8EncodeChar_of_lt {letter : Char} (small : letter.toNat < 0x80) :
    String.utf8EncodeChar letter = [UInt8.ofNat letter.toNat] := by
  simp only [Char.toNat] at small ⊢
  unfold String.utf8EncodeChar
  exact if_pos (by omega)

theorem le_of_mem_utf8EncodeChar {letter : Char} (large : 0x80 ≤ letter.toNat) :
    ∀ next ∈ String.utf8EncodeChar letter, 0x80 ≤ next.toNat := by
  simp only [Char.toNat] at large
  unfold String.utf8EncodeChar
  dsimp only
  generalize letter.val.toNat = code at *
  split_ifs <;> simp [UInt8.toNat_ofNat'] <;> omega

/-- What is written in letters is UTF-8 to the end. -/
theorem notUnicodeFrom_encode (letters : List Char) : notUnicodeFrom (encode letters) = [] := by
  induction letters with
  | nil => rfl
  | cons letter rest inductionHypothesis =>
      rw [encode_cons, notUnicodeFrom_letter, inductionHypothesis]

end CpuScheduling.Json
