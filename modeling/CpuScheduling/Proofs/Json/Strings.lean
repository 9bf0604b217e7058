import CpuScheduling.Checked
import CpuScheduling.Proofs.Json.Unicode

/-!
Strings in quotes.  What is read between the quotes is what JSON says that it spells: each
letter stands for itself or is written as an escape.
-/

namespace CpuScheduling.Json

def plainEscapes : List (Char × Char) :=
  [('"', '"'), ('\\', '\\'), ('/', '/'), ('b', '\x08'), ('f', '\x0c'), ('n', '\n'), ('r', '\r'),
    ('t', '\t')]

def HexDigit (value : Nat) (letter : UInt8) : Prop :=
  (ascii "0123456789abcdef")[value]? = some letter ∨
    (ascii "0123456789ABCDEF")[value]? = some letter

inductive Hex : Nat → Bytes → Prop
  | digits {first second third fourth : UInt8} {a b c d : Nat} (isFirst : HexDigit a first)
      (isSecond : HexDigit b second) (isThird : HexDigit c third) (isFourth : HexDigit d fourth) :
      Hex (((a * 16 + b) * 16 + c) * 16 + d) [first, second, third, fourth]

inductive Escapes : Char → Bytes → Prop
  | plain {mark letter : Char} (listed : (mark, letter) ∈ plainEscapes) :
      Escapes letter [byte mark]
  | code {code : Nat} {digits : Bytes} (hex : Hex code digits)
      (noSurrogate : code < 0xD800 ∨ 0xE000 ≤ code) :
      Escapes (Char.ofNat code) (byte 'u' :: digits)
  | pair {high low : Nat} {highDigits lowDigits : Bytes} (highHex : Hex high highDigits)
      (isHigh : 0xD800 ≤ high ∧ high < 0xDC00) (lowHex : Hex low lowDigits)
      (isLow : 0xDC00 ≤ low ∧ low < 0xE000) :
      Escapes (Char.ofNat (0x10000 + (high - 0xD800) * 0x400 + (low - 0xDC00)))
        (byte 'u' :: highDigits ++ byte '\\' :: byte 'u' :: lowDigits)

inductive Spells : Char → Bytes → Prop
  | itself {letter : Char} (visible : 0x20 ≤ letter.toNat) (noQuote : letter ≠ '"')
      (noBackslash : letter ≠ '\\') : Spells letter (String.utf8EncodeChar letter)
  | escaped {letter : Char} {marks : Bytes} (escapes : Escapes letter marks) :
      Spells letter (byte '\\' :: marks)

/-- How a text is written between quotes. -/
inductive Quoted : List Char → Bytes → Prop
  | nil : Quoted [] []
  | cons {letter : Char} {letters : List Char} {piece more : Bytes} (spells : Spells letter piece)
      (quoted : Quoted letters more) : Quoted (letter :: letters) (piece ++ more)

section Escapes

variable {value : Nat} {digits text content rest : Bytes} {letter : Char}

theorem HexDigit.lt {first : UInt8} (isDigit : HexDigit value first) : value < 16 := by
  obtain found | found := isDigit <;>
    exact (List.getElem?_eq_some_iff.mp found).1

theorem hexDigit?_eq_some_iff {first : UInt8} :
    hexDigit? first = some value ↔ HexDigit value first := by
  have ofCode : ∀ code < UInt8.size, ∀ value ∈ hexDigit? (UInt8.ofNat code),
      (ascii "0123456789abcdef")[value]? = some (UInt8.ofNat code) ∨
        (ascii "0123456789ABCDEF")[value]? = some (UInt8.ofNat code) := by
    decide +kernel
  have ofValue : ∀ value < 16,
      (∀ letter ∈ (ascii "0123456789abcdef")[value]?, hexDigit? letter = some value) ∧
        ∀ letter ∈ (ascii "0123456789ABCDEF")[value]?, hexDigit? letter = some value := by
    decide +kernel
  constructor
  · intro isDigit
    simpa [HexDigit] using ofCode first.toNat first.toNat_lt value (by simpa using isDigit)
  · intro isDigit
    obtain ⟨small, capital⟩ := ofValue value isDigit.lt
    exact isDigit.elim (small first) (capital first)

theorem hexNumber_of_hex (hex : Hex value digits) (rest : Bytes) :
    hexNumber (digits ++ rest) = .ok (value, rest) := by
  cases hex with
  | digits isFirst isSecond isThird isFourth =>
      simp [hexNumber, hexDigit?_eq_some_iff.mpr isFirst, hexDigit?_eq_some_iff.mpr isSecond,
        hexDigit?_eq_some_iff.mpr isThird, hexDigit?_eq_some_iff.mpr isFourth]

theorem hex_of_hexNumber (reads : hexNumber text = .ok (value, rest)) :
    ∃ digits, text = digits ++ rest ∧ Hex value digits := by
  unfold hexNumber at reads
  split at reads
  next first second third fourth more =>
    split at reads
    next a b c d isFirst isSecond isThird isFourth =>
      cases reads
      rw [hexDigit?_eq_some_iff] at isFirst isSecond isThird isFourth
      exact ⟨_, rfl, .digits isFirst isSecond isThird isFourth⟩
    next => cases reads
  next => cases reads

theorem hex_lt (hex : Hex value digits) : value < 0x10000 := by
  cases hex with
  | digits isFirst isSecond isThird isFourth =>
      have firstSmall := isFirst.lt
      have secondSmall := isSecond.lt
      have thirdSmall := isThird.lt
      have fourthSmall := isFourth.lt
      omega

theorem surrogateMark_cons (mark : UInt8) (rest : Bytes) :
    surrogateMark mark (mark :: rest) = .ok rest :=
  if_pos rfl

theorem cons_of_surrogateMark {mark : UInt8} (reads : surrogateMark mark text = .ok rest) :
    text = mark :: rest := by
  cases text with
  | nil => cases reads
  | cons next more =>
      simp only [surrogateMark] at reads
      split_ifs at reads with same
      cases reads
      rw [same]

theorem utf8_code (hex : Hex value digits) (noSurrogate : value < 0xD800 ∨ 0xE000 ≤ value) :
    utf8 value = String.utf8EncodeChar (Char.ofNat value) := by
  refine utf8_of_isValidChar ?_
  have bound := hex_lt hex
  simp only [Nat.isValidChar]
  omega

theorem utf8_pair {high low : Nat} (isHigh : 0xD800 ≤ high ∧ high < 0xDC00)
    (isLow : 0xDC00 ≤ low ∧ low < 0xE000) :
    utf8 (0x10000 + (high - 0xD800) * 0x400 + (low - 0xDC00)) =
      String.utf8EncodeChar
        (Char.ofNat (0x10000 + (high - 0xD800) * 0x400 + (low - 0xDC00))) := by
  refine utf8_of_isValidChar ?_
  simp only [Nat.isValidChar]
  omega

theorem plainEscape?_of_listed : ∀ entry ∈ plainEscapes,
    plainEscape? (byte entry.1) = some (byte entry.2) ∧
      String.utf8EncodeChar entry.2 = [byte entry.2] := by
  decide

theorem listed_of_plainEscape? {mark plain : UInt8} (isPlain : plainEscape? mark = some plain) :
    ∃ entry ∈ plainEscapes, mark = byte entry.1 ∧ plain = byte entry.2 := by
  have ofCode : ∀ code < UInt8.size, ∀ plain ∈ plainEscape? (UInt8.ofNat code),
      ∃ entry ∈ plainEscapes, UInt8.ofNat code = byte entry.1 ∧ plain = byte entry.2 := by
    decide +kernel
  simpa using ofCode mark.toNat mark.toNat_lt plain (by simpa using isPlain)

theorem escape_complete {marks : Bytes} (escapes : Escapes letter marks) (rest : Bytes) :
    escape true (marks ++ rest) = .ok (String.utf8EncodeChar letter, rest) := by
  have unlisted : plainEscape? (byte 'u') = none := by decide
  cases escapes with
  | plain listed =>
      obtain ⟨isPlain, spelled⟩ := plainEscape?_of_listed _ listed
      rw [List.singleton_append, escape, isPlain, spelled]
  | @code code digits hex noSurrogate =>
      have noLow : ¬(0xDC00 ≤ code ∧ code < 0xE000) := by omega
      have noHigh : ¬(0xD800 ≤ code ∧ code < 0xDC00) := by omega
      rw [List.cons_append, escape, unlisted]
      simp only [if_true, unicodeEscape, hexNumber_of_hex hex, bind, Except.bind, noLow, noHigh,
        if_false, pure, Except.pure, utf8_code hex noSurrogate]
  | @pair high low highDigits lowDigits highHex isHigh lowHex isLow =>
      have noLow : ¬(0xDC00 ≤ high ∧ high < 0xE000) := by omega
      rw [List.cons_append, List.cons_append, escape, unlisted, List.append_assoc, List.cons_append,
        List.cons_append]
      simp only [if_true, unicodeEscape, hexNumber_of_hex highHex, hexNumber_of_hex lowHex, bind,
        Except.bind, noLow, isHigh, isLow, and_self, if_false, surrogateMark_cons, pure,
        Except.pure, utf8_pair isHigh isLow]

theorem escape_sound (reads : escape true text = .ok (content, rest)) :
    ∃ letter marks, content = String.utf8EncodeChar letter ∧ text = marks ++ rest ∧
      Escapes letter marks := by
  unfold escape at reads
  split at reads
  next => cases reads
  next mark more =>
    split at reads
    next plain isPlain =>
      obtain ⟨entry, listed, rfl, rfl⟩ := listed_of_plainEscape? isPlain
      cases reads
      exact ⟨entry.2, _, (plainEscape?_of_listed entry listed).2.symm, rfl, .plain listed⟩
    next =>
      simp only [if_true] at reads
      split_ifs at reads with isCode
      subst isCode
      unfold unicodeEscape at reads
      obtain ⟨⟨first, behind⟩, readsFirst, decides⟩ := bind_eq_ok_iff.mp reads
      obtain ⟨digits, rfl, hex⟩ := hex_of_hexNumber readsFirst
      dsimp only at decides
      split_ifs at decides with isLow isHigh
      · obtain ⟨marked, readsMark, goesOn⟩ := bind_eq_ok_iff.mp decides
        obtain ⟨behindMark, readsCode, readsOther⟩ := bind_eq_ok_iff.mp goesOn
        obtain ⟨⟨second, behindPair⟩, readsSecond, ends⟩ := bind_eq_ok_iff.mp readsOther
        obtain ⟨lowDigits, rfl, lowHex⟩ := hex_of_hexNumber readsSecond
        obtain rfl := cons_of_surrogateMark readsCode
        obtain rfl := cons_of_surrogateMark readsMark
        dsimp only at ends
        split_ifs at ends with isSecondLow
        simp only [pure, Except.pure, Except.ok.injEq, Prod.mk.injEq] at ends
        obtain ⟨rfl, rfl⟩ := ends
        exact ⟨_, _, utf8_pair isHigh isSecondLow, by simp, .pair hex isHigh lowHex isSecondLow⟩
      · cases decides
        have noSurrogate : first < 0xD800 ∨ 0xE000 ≤ first := by omega
        exact ⟨_, _, utf8_code hex noSurrogate, rfl, .code hex noSurrogate⟩

end Escapes

/-- A byte that stands for itself between quotes. -/
def IsOrdinary (letter : UInt8) : Prop :=
  letter ≠ byte '"' ∧ letter ≠ byte '\\' ∧ ¬letter < 0x20

theorem isOrdinary_iff (letter : UInt8) :
    IsOrdinary letter ↔ letter.toNat ≠ 0x22 ∧ letter.toNat ≠ 0x5C ∧ 0x20 ≤ letter.toNat := by
  simp [IsOrdinary, byte, ← UInt8.toNat_inj, UInt8.lt_iff_toNat_lt]

section Quotes

variable {letter : Char} {letters : List Char} {first : UInt8}
  {tail piece used text content rest : Bytes} {fuel : Nat}

theorem isOrdinary_of_mem (visible : 0x20 ≤ letter.toNat) (noQuote : letter ≠ '"')
    (noBackslash : letter ≠ '\\') : ∀ next ∈ String.utf8EncodeChar letter, IsOrdinary next := by
  have quote : letter.toNat ≠ 0x22 := fun same => noQuote (Char.toNat_inj.mp same)
  have backslash : letter.toNat ≠ 0x5C := fun same => noBackslash (Char.toNat_inj.mp same)
  intro next member
  rw [isOrdinary_iff]
  by_cases small : letter.toNat < 0x80
  · rw [utf8EncodeChar_of_lt small, List.mem_singleton] at member
    rw [member, UInt8.toNat_ofNat']
    omega
  · have large := le_of_mem_utf8EncodeChar (Nat.le_of_not_lt small) next member
    omega

theorem spells_of_isOrdinary (starts : String.utf8EncodeChar letter = first :: tail)
    (ordinary : IsOrdinary first) : Spells letter (String.utf8EncodeChar letter) := by
  rw [isOrdinary_iff] at ordinary
  have same (small : letter.toNat < 0x80) : first.toNat = letter.toNat := by
    rw [utf8EncodeChar_of_lt small, List.cons.injEq] at starts
    rw [← starts.1, UInt8.toNat_ofNat']
    omega
  refine .itself ?_ ?_ ?_
  · by_cases small : letter.toNat < 0x80
    · have isFirst := same small
      omega
    · omega
  · rintro rfl
    exact ordinary.1 (same (by decide))
  · rintro rfl
    exact ordinary.2.1 (same (by decide))

theorem quoted_cons_of_isOrdinary (ordinary : IsOrdinary first) (fuel : Nat) (text : Bytes) :
    quoted true (fuel + 1) (first :: text) =
      (quoted true fuel text).map fun (more, rest) => (first :: more, rest) := by
  obtain ⟨noQuote, noBackslash, visible⟩ := ordinary
  rw [quoted, if_neg noQuote, if_neg noBackslash, if_neg visible]
  cases quoted true fuel text <;> rfl

theorem quoted_append_of_isOrdinary (ordinary : ∀ next ∈ piece, IsOrdinary next) (fuel : Nat)
    (text : Bytes) : quoted true (fuel + piece.length) (piece ++ text) =
      (quoted true fuel text).map fun (more, rest) => (piece ++ more, rest) := by
  induction piece with
  | nil => cases told : quoted true fuel text <;> simp [told, Except.map]
  | cons next piece inductionHypothesis =>
      obtain ⟨isOrdinary, others⟩ := List.forall_mem_cons.mp ordinary
      rw [List.length_cons, ← Nat.add_assoc, List.cons_append,
        quoted_cons_of_isOrdinary isOrdinary, inductionHypothesis others]
      cases quoted true fuel text <;> rfl

theorem quoted_complete (isQuoted : Quoted letters used) (enough : used.length < fuel)
    (rest : Bytes) :
    quoted true fuel (used ++ byte '"' :: rest) = .ok (encode letters, rest) := by
  induction isQuoted generalizing fuel with
  | nil =>
      obtain ⟨less, rfl⟩ := Nat.exists_eq_add_of_lt enough
      rw [List.length_nil, Nat.zero_add, List.nil_append, quoted, if_pos rfl]
      rfl
  | @cons letter letters piece more spells _ inductionHypothesis =>
      rw [List.length_append] at enough
      rw [List.append_assoc]
      cases spells with
      | itself visible noQuote noBackslash =>
          obtain ⟨less, rfl⟩ := Nat.exists_eq_add_of_le' (Nat.le_of_lt (Nat.lt_of_le_of_lt
            (Nat.le_add_right _ _) enough))
          rw [quoted_append_of_isOrdinary (isOrdinary_of_mem visible noQuote noBackslash),
            inductionHypothesis (by omega)]
          rfl
      | @escaped marks escapes =>
          obtain ⟨less, rfl⟩ := Nat.exists_eq_add_of_lt enough
          rw [List.cons_append, quoted, if_neg (by decide), if_pos rfl, escape_complete escapes]
          simp only [bind, Except.bind]
          rw [inductionHypothesis (by simp only [List.length_cons]; omega)]
          rfl

/-- What a round of reading between quotes does: it ends, or it reads an escape or one byte. -/
theorem quoted_cases (reads : quoted true fuel text = .ok (content, rest)) :
    ∃ less first behind, fuel = less + 1 ∧ text = first :: behind ∧
      (first = byte '"' ∧ content = [] ∧ behind = rest ∨
        (∃ letter marks after more, first = byte '\\' ∧ Escapes letter marks ∧
          behind = marks ++ after ∧ content = String.utf8EncodeChar letter ++ more ∧
          quoted true less after = .ok (more, rest)) ∨
        ∃ more, IsOrdinary first ∧ content = first :: more ∧
          quoted true less behind = .ok (more, rest)) := by
  cases fuel with
  | zero => cases reads
  | succ less =>
      cases text with
      | nil => cases reads
      | cons first behind =>
          refine ⟨less, first, behind, rfl, rfl, ?_⟩
          rw [quoted] at reads
          split_ifs at reads with isQuote isBackslash isControl
          · cases reads
            exact .inl ⟨isQuote, rfl, rfl⟩
          · obtain ⟨⟨piece, after⟩, readsPiece, goesOn⟩ := bind_eq_ok_iff.mp reads
            obtain ⟨⟨more, left⟩, readsMore, ends⟩ := bind_eq_ok_iff.mp goesOn
            obtain ⟨letter, marks, rfl, rfl, escapes⟩ := escape_sound readsPiece
            cases ends
            exact .inr (.inl ⟨letter, marks, after, more, isBackslash, escapes, rfl, rfl, readsMore⟩)
          · obtain ⟨⟨more, left⟩, readsMore, ends⟩ := bind_eq_ok_iff.mp reads
            cases ends
            exact .inr (.inr ⟨more, ⟨isQuote, isBackslash, isControl⟩, rfl, readsMore⟩)

theorem quoted_continues (continues : ∀ next ∈ tail, isContinuation next = true)
    (reads : quoted true fuel text = .ok (tail ++ content, rest)) :
    ∃ less ≤ fuel, ∃ behind, text = tail ++ behind ∧
      quoted true less behind = .ok (content, rest) := by
  induction tail generalizing fuel text with
  | nil => exact ⟨fuel, Nat.le_refl fuel, text, rfl, reads⟩
  | cons next tail inductionHypothesis =>
      obtain ⟨isNext, others⟩ := List.forall_mem_cons.mp continues
      obtain ⟨less, first, behind, rfl, rfl, ends | escapes | itself⟩ := quoted_cases reads
      · cases ends.2.1
      · obtain ⟨letter, marks, after, more, _, _, _, starts, _⟩ := escapes
        cases spelled : String.utf8EncodeChar letter with
        | nil => exact absurd spelled String.utf8EncodeChar_ne_nil
        | cons lead trail =>
            rw [spelled, List.cons_append, List.cons_append, List.cons.injEq] at starts
            rw [starts.1, not_isContinuation_of_letter spelled] at isNext
            cases isNext
      · obtain ⟨more, _, same, readsMore⟩ := itself
        cases same
        obtain ⟨fewer, atMost, left, rfl, readsLeft⟩ := inductionHypothesis others readsMore
        exact ⟨fewer, by omega, left, rfl, readsLeft⟩

theorem quoted_sound (reads : quoted true fuel text = .ok (content, rest))
    (unicode : notUnicodeFrom content = []) :
    ∃ letters used, content = encode letters ∧ text = used ++ byte '"' :: rest ∧
      Quoted letters used := by
  induction fuel using Nat.strongRecOn generalizing text content with
  | ind fuel inductionHypothesis =>
      obtain ⟨less, first, behind, rfl, rfl, ends | escapes | itself⟩ := quoted_cases reads
      · obtain ⟨rfl, rfl, rfl⟩ := ends
        exact ⟨[], [], rfl, rfl, .nil⟩
      · obtain ⟨letter, marks, after, more, rfl, escapes, rfl, rfl, readsMore⟩ := escapes
        rw [notUnicodeFrom_letter] at unicode
        obtain ⟨letters, used, rfl, rfl, isQuoted⟩ :=
          inductionHypothesis less (by omega) readsMore unicode
        exact ⟨letter :: letters, _, rfl, by simp, .cons (.escaped escapes) isQuoted⟩
      · obtain ⟨more, ordinary, rfl, readsMore⟩ := itself
        obtain ⟨letter, tail, others, starts, rfl, continues, unicode⟩ := exists_letter unicode
        obtain ⟨fewer, atMost, left, rfl, readsLeft⟩ := quoted_continues continues readsMore
        obtain ⟨letters, used, rfl, rfl, isQuoted⟩ :=
          inductionHypothesis fewer (by omega) readsLeft unicode
        refine ⟨letter :: letters, first :: tail ++ used, ?_, by simp, ?_⟩
        · rw [encode_cons, starts]
          rfl
        · exact starts ▸ .cons (spells_of_isOrdinary starts ordinary) isQuoted

theorem string_complete (isQuoted : Quoted letters used) (rest : Bytes) :
    string true (used ++ byte '"' :: rest) = .ok (encode letters, rest) := by
  have enough : used.length < (used ++ byte '"' :: rest).length := by simp
  rw [string, quoted_complete isQuoted enough]
  simp [bind, Except.bind, notUnicodeFrom_encode, pure, Except.pure]

theorem string_sound (reads : string true text = .ok (content, rest)) :
    ∃ letters used, content = encode letters ∧ text = used ++ byte '"' :: rest ∧
      Quoted letters used := by
  obtain ⟨⟨inner, left⟩, readsInner, ends⟩ := bind_eq_ok_iff.mp reads
  cases unicode : notUnicodeFrom inner with
  | nil =>
      simp only [unicode, pure, Except.pure, Except.ok.injEq, Prod.mk.injEq] at ends
      obtain ⟨rfl, rfl⟩ := ends
      exact quoted_sound readsInner unicode
  | cons => simp [unicode] at ends

end Quotes

end CpuScheduling.Json
