import CpuScheduling.Checked
import CpuScheduling.Json.Value
import CpuScheduling.Proofs.Json.Strings

/-!
What stands between brackets or braces: elements with a comma between each two, and blanks
wherever the elements and commas leave room for them.  Arrays and objects are read by one loop,
which differs only in how it reads an element and in what it calls its problems.
-/

namespace CpuScheduling.Json

def Blank (text : Bytes) : Prop :=
  ∀ letter ∈ text, letter ∈ ascii " \n\r\t"

inductive MoreElements {Alpha : Type} (element : Alpha → Bytes → Prop) : List Alpha → Bytes → Prop
  | nil {blank : Bytes} (isBlank : Blank blank) : MoreElements element [] blank
  | cons {item : Alpha} {items : List Alpha} {before behind used more : Bytes}
      (isBefore : Blank before) (isBehind : Blank behind) (isElement : element item used)
      (others : MoreElements element items more) :
      MoreElements element (item :: items) (before ++ byte ',' :: behind ++ used ++ more)

/-- Elements with a comma between each two and blanks around them. -/
inductive Elements {Alpha : Type} (element : Alpha → Bytes → Prop) : List Alpha → Bytes → Prop
  | nil {blank : Bytes} (isBlank : Blank blank) : Elements element [] blank
  | cons {item : Alpha} {items : List Alpha} {blank used more : Bytes} (isBlank : Blank blank)
      (isElement : element item used) (others : MoreElements element items more) :
      Elements element (item :: items) (blank ++ used ++ more)

/-- A member of an object: a key, a colon and a value. -/
inductive Member (inner : Value → Bytes → Prop) : Bytes × Value → Bytes → Prop
  | keyed {letters : List Char} {key before behind used : Bytes} {value : Value}
      (quoted : Quoted letters key) (isBefore : Blank before) (isBehind : Blank behind)
      (isValue : inner value used) :
      Member inner (encode letters, value)
        (byte '"' :: key ++ byte '"' :: before ++ byte ':' :: behind ++ used)

def EndsValue (rest : Bytes) : Prop :=
  ∀ next ∈ rest.head?,
    isBlank next = true ∨ next = byte ',' ∨ next = byte ']' ∨ next = byte '}'

/-- A way to read elements reads each that is written. -/
def ReadsAll {Alpha : Type} (element : Alpha → Bytes → Prop)
    (read : Bytes → Except Stop (Alpha × Bytes)) : Prop :=
  ∀ item used rest, element item used → EndsValue rest → read (used ++ rest) = .ok (item, rest)

/-- A way to read elements reads none that is not written, maybe behind blanks. -/
def ReadsOnly {Alpha : Type} (element : Alpha → Bytes → Prop)
    (read : Bytes → Except Stop (Alpha × Bytes)) : Prop :=
  ∀ text item rest, read text = .ok (item, rest) →
    ∃ blank used, Blank blank ∧ text = blank ++ used ++ rest ∧ element item used

/-- The loop that reads elements behind the first one up to what closes them. -/
def moreElements {Alpha : Type} (close : UInt8) (ending expected : Problem)
    (read : Bytes → Except Stop (Alpha × Bytes)) : Nat → Bytes → Except Stop (List Alpha × Bytes)
  | 0, text => .error (.on ending text)
  | fuel + 1, text =>
      match skipBlank text with
      | [] => .error (.on ending [])
      | letter :: rest =>
          if letter = close then .ok ([], rest)
          else if letter = byte ',' then
            match skipBlank rest with
            | [] => .error (.on .endInValue [])
            | next :: behind =>
                if next = close then .error (.on .trailingComma (next :: behind))
                else do
                  let (item, rest) ← read (next :: behind)
                  let (items, rest) ← moreElements close ending expected read fuel rest
                  return (item :: items, rest)
          else .error (.on expected (letter :: rest))

def elements {Alpha : Type} (close : UInt8) (ending expected : Problem)
    (read : Bytes → Except Stop (Alpha × Bytes)) (text : Bytes) :
    Except Stop (List Alpha × Bytes) :=
  match skipBlank text with
  | [] => .error (.on ending [])
  | letter :: rest =>
      if letter = close then .ok ([], rest)
      else do
        let (item, rest) ← read (letter :: rest)
        let (items, rest) ← moreElements close ending expected read rest.length rest
        return (item :: items, rest)

theorem moreItems_eq (item : Bytes → Except Stop (Value × Bytes)) (fuel : Nat) (text : Bytes) :
    moreItems item fuel text =
      moreElements (byte ']') .endInList .expectedListCommaOrEnd item fuel text := by
  induction fuel generalizing text with
  | zero => rfl
  | succ fuel inductionHypothesis =>
      cases goesOn : skipBlank text with
      | nil => simp only [moreItems, moreElements, goesOn]
      | cons letter rest =>
          cases behind : skipBlank rest <;>
            simp only [moreItems, moreElements, goesOn, behind, inductionHypothesis]

theorem items_eq (item : Bytes → Except Stop (Value × Bytes)) (text : Bytes) :
    items item text = elements (byte ']') .endInList .expectedListCommaOrEnd item text := by
  cases goesOn : skipBlank text <;> simp only [items, elements, goesOn, moreItems_eq]

theorem moreMembers_eq (wanted : Bool) (item : Bytes → Bytes → Except Stop (Value × Bytes))
    (fuel : Nat) (text : Bytes) :
    moreMembers wanted item fuel text = moreElements (byte '}') .endInObject
      .expectedObjectCommaOrEnd (member wanted item) fuel text := by
  induction fuel generalizing text with
  | zero => rfl
  | succ fuel inductionHypothesis =>
      cases goesOn : skipBlank text with
      | nil => simp only [moreMembers, moreElements, goesOn]
      | cons letter rest =>
          cases behind : skipBlank rest <;>
            simp only [moreMembers, moreElements, goesOn, behind, inductionHypothesis]

theorem members_eq (wanted : Bool) (item : Bytes → Bytes → Except Stop (Value × Bytes))
    (text : Bytes) :
    members wanted item text = elements (byte '}') .endInObject .expectedObjectCommaOrEnd
      (member wanted item) text := by
  cases goesOn : skipBlank text <;> simp only [members, elements, goesOn, moreMembers_eq]

section Blanks

variable {blank text rest : Bytes} {letter : UInt8}

theorem isBlank_iff : isBlank letter = true ↔ letter ∈ ascii " \n\r\t" := by
  simp [isBlank, ascii, or_assoc]

theorem skipBlank_append (isBlank : Blank blank) (text : Bytes) :
    skipBlank (blank ++ text) = skipBlank text :=
  List.dropWhile_append_of_pos fun letter member => isBlank_iff.mpr (isBlank letter member)

theorem skipBlank_cons (noBlank : isBlank letter = false) (rest : Bytes) :
    skipBlank (letter :: rest) = letter :: rest := by
  simp [skipBlank, noBlank]

theorem exists_blank (text : Bytes) : ∃ blank, Blank blank ∧ text = blank ++ skipBlank text := by
  refine ⟨text.takeWhile isBlank, fun letter member => ?_, List.takeWhile_append_dropWhile.symm⟩
  exact isBlank_iff.mp (List.all_eq_true.mp List.all_takeWhile letter member)

theorem Blank.append {before behind : Bytes} (isBefore : Blank before) (isBehind : Blank behind) :
    Blank (before ++ behind) := by
  intro letter member
  exact (List.mem_append.mp member).elim (isBefore letter) (isBehind letter)

theorem Blank.endsValue (isBlank : Blank blank) (ends : EndsValue rest) :
    EndsValue (blank ++ rest) := by
  cases blank with
  | nil => exact ends
  | cons next blank =>
      rintro _ ⟨⟩
      exact .inl (isBlank_iff.mpr (isBlank next List.mem_cons_self))

theorem exists_of_skipBlank (goesOn : skipBlank text = letter :: rest) :
    ∃ blank, Blank blank ∧ text = blank ++ letter :: rest := by
  obtain ⟨blank, isBlank, whole⟩ := exists_blank text
  exact ⟨blank, isBlank, goesOn ▸ whole⟩

end Blanks

def Starts (close : UInt8) (text : Bytes) : Prop :=
  ∃ first rest, text = first :: rest ∧ isBlank first = false ∧ first ≠ close

section Elements

variable {Alpha : Type} {element : Alpha → Bytes → Prop} {read : Bytes → Except Stop (Alpha × Bytes)}
  {close : UInt8} {ending expected : Problem} {items : List Alpha} {used rest text : Bytes}
  {fuel : Nat}

theorem MoreElements.endsValue (more : MoreElements element items used) (ends : EndsValue rest) :
    EndsValue (used ++ rest) := by
  have comma (text : Bytes) : EndsValue (byte ',' :: text) := by
    rintro _ ⟨⟩
    exact .inr (.inl rfl)
  cases more with
  | nil isBlank => exact isBlank.endsValue ends
  | cons isBefore =>
      simp only [List.append_assoc, List.cons_append]
      exact isBefore.endsValue (comma _)

theorem moreElements_complete (isClose : close = byte ']' ∨ close = byte '}')
    (starts : ∀ item used, element item used → Starts close used) (readsAll : ReadsAll element read)
    (more : MoreElements element items used) (enough : (used ++ close :: rest).length ≤ fuel) :
    moreElements close ending expected read fuel (used ++ close :: rest) = .ok (items, rest) := by
  have noBlank : isBlank close = false := by
    obtain rfl | rfl := isClose <;> rfl
  have noComma : close ≠ byte ',' := by
    obtain rfl | rfl := isClose <;> decide
  have closes : EndsValue (close :: rest) := by
    rintro _ ⟨⟩
    exact .inr (.inr isClose)
  induction more generalizing fuel with
  | nil isBlank =>
      cases fuel with
      | zero => simp at enough
      | succ fuel =>
          rw [moreElements, skipBlank_append isBlank, skipBlank_cons noBlank]
          exact if_pos rfl
  | @cons item items before behind used more isBefore isBehind isElement others inductionHypothesis =>
      cases fuel with
      | zero => simp at enough
      | succ fuel =>
          obtain ⟨first, tail, rfl, noBlankFirst, notClose⟩ := starts item used isElement
          have reads := readsAll item (first :: tail) _ isElement (others.endsValue closes)
          simp only [List.append_assoc, List.cons_append] at reads enough ⊢
          rw [moreElements, skipBlank_append isBefore, skipBlank_cons (by decide)]
          simp only [if_neg noComma.symm, if_true, skipBlank_append isBehind,
            skipBlank_cons noBlankFirst, if_neg notClose, reads, bind, Except.bind]
          rw [inductionHypothesis (by simp at enough ⊢; omega)]
          rfl

theorem elements_complete (isClose : close = byte ']' ∨ close = byte '}')
    (starts : ∀ item used, element item used → Starts close used) (readsAll : ReadsAll element read)
    (isElements : Elements element items used) (rest : Bytes) :
    elements close ending expected read (used ++ close :: rest) = .ok (items, rest) := by
  have noBlank : isBlank close = false := by
    obtain rfl | rfl := isClose <;> rfl
  have closes : EndsValue (close :: rest) := by
    rintro _ ⟨⟩
    exact .inr (.inr isClose)
  cases isElements with
  | nil isBlank =>
      rw [elements, skipBlank_append isBlank, skipBlank_cons noBlank]
      exact if_pos rfl
  | @cons item items blank used more isBlank isElement others =>
      obtain ⟨first, tail, rfl, noBlankFirst, notClose⟩ := starts item used isElement
      have reads := readsAll item (first :: tail) _ isElement (others.endsValue closes)
      simp only [List.append_assoc, List.cons_append] at reads ⊢
      rw [elements, skipBlank_append isBlank, skipBlank_cons noBlankFirst]
      simp only [if_neg notClose, reads, bind, Except.bind,
        moreElements_complete isClose starts readsAll others (Nat.le_refl _)]
      rfl

theorem moreElements_sound (readsOnly : ReadsOnly element read)
    (reads : moreElements close ending expected read fuel text = .ok (items, rest)) :
    ∃ used, text = used ++ close :: rest ∧ MoreElements element items used := by
  induction fuel generalizing text items with
  | zero => cases reads
  | succ fuel inductionHypothesis =>
      rw [moreElements] at reads
      split at reads
      next => cases reads
      next letter behind goesOn =>
        obtain ⟨before, isBefore, rfl⟩ := exists_of_skipBlank goesOn
        split_ifs at reads with isClose isComma
        · cases reads
          exact ⟨before, by rw [isClose], .nil isBefore⟩
        · split at reads
          next => cases reads
          next next left goesOn =>
            obtain ⟨gap, isGap, rfl⟩ := exists_of_skipBlank goesOn
            split_ifs at reads
            obtain ⟨⟨item, leftItem⟩, readsItem, others⟩ := bind_eq_ok_iff.mp reads
            obtain ⟨⟨more, leftMore⟩, readsMore, ends⟩ := bind_eq_ok_iff.mp others
            cases ends
            obtain ⟨blank, used, isBlank, whole, isElement⟩ := readsOnly _ _ _ readsItem
            obtain ⟨usedMore, rfl, isMore⟩ := inductionHypothesis readsMore
            refine ⟨_, ?_, .cons isBefore (isGap.append isBlank) isElement isMore⟩
            simp [isComma, whole]

theorem elements_sound (readsOnly : ReadsOnly element read)
    (reads : elements close ending expected read text = .ok (items, rest)) :
    ∃ used, text = used ++ close :: rest ∧ Elements element items used := by
  unfold elements at reads
  split at reads
  next => cases reads
  next letter behind goesOn =>
    obtain ⟨before, isBefore, rfl⟩ := exists_of_skipBlank goesOn
    split_ifs at reads with isClose
    · cases reads
      exact ⟨before, by rw [isClose], .nil isBefore⟩
    · obtain ⟨⟨item, leftItem⟩, readsItem, others⟩ := bind_eq_ok_iff.mp reads
      obtain ⟨⟨more, leftMore⟩, readsMore, ends⟩ := bind_eq_ok_iff.mp others
      cases ends
      obtain ⟨blank, used, isBlank, whole, isElement⟩ := readsOnly _ _ _ readsItem
      obtain ⟨usedMore, rfl, isMore⟩ := moreElements_sound readsOnly readsMore
      refine ⟨_, ?_, .cons (isBefore.append isBlank) isElement isMore⟩
      simp [whole]

end Elements

section Members

variable {inner : Value → Bytes → Prop} {item : Bytes → Bytes → Except Stop (Value × Bytes)}

/-- Members are read where their values are, whatever their keys. -/
theorem member_readsAll (readsAll : ∀ key, ReadsAll inner (item key))
    (skips : ∀ key blank text, Blank blank → item key (blank ++ text) = item key text) :
    ReadsAll (Member inner) (member true item) := by
  rintro _ _ rest ⟨quoted, isBefore, isBehind, isValue⟩ ends
  have noBlank : isBlank (byte ':') = false := rfl
  simp only [List.append_assoc, List.cons_append]
  rw [member]
  simp only [if_true, string_complete quoted, bind, Except.bind, skipBlank_append isBefore,
    skipBlank_cons noBlank, skips _ _ _ isBehind,
    readsAll _ _ _ _ isValue ends]
  rfl

theorem member_readsOnly (readsOnly : ∀ key, ReadsOnly inner (item key)) :
    ReadsOnly (Member inner) (member true item) := by
  intro text entry rest reads
  unfold member at reads
  split at reads
  next => cases reads
  next letter behind =>
    split_ifs at reads with isQuote
    obtain ⟨⟨key, left⟩, readsKey, goesOn⟩ := bind_eq_ok_iff.mp reads
    obtain ⟨letters, used, rfl, rfl, quoted⟩ := string_sound readsKey
    dsimp only at goesOn
    split at goesOn
    next => cases goesOn
    next next after isNext =>
      obtain ⟨before, isBefore, rfl⟩ := exists_of_skipBlank isNext
      split_ifs at goesOn with isColon
      obtain ⟨⟨value, leftValue⟩, readsValue, ends⟩ := bind_eq_ok_iff.mp goesOn
      cases ends
      obtain ⟨blank, usedValue, isBlank, rfl, isValue⟩ := readsOnly _ _ _ _ readsValue
      refine ⟨[], _, nofun, ?_, .keyed quoted isBefore isBlank isValue⟩
      simp [isQuote, isColon]

theorem Member.starts {entry : Bytes × Value} {used : Bytes} (isMember : Member inner entry used) :
    Starts (byte '}') used := by
  cases isMember
  exact ⟨_, _, rfl, rfl, by decide⟩

end Members

end CpuScheduling.Json
