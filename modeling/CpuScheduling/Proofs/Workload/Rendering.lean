import CpuScheduling.Proofs.Workload.Document

/-!
Every workload can be written: it is the workload of some text.
-/

namespace CpuScheduling

namespace Json

def IsAscii (text : Bytes) : Prop :=
  ∀ letter ∈ text, letter.toNat < 0x80

instance (text : Bytes) : Decidable (IsAscii text) :=
  List.decidableBAll _ text

/-- A value that can be written in ASCII with at most so many arrays and objects around one
another. -/
def Writable (depth : Nat) (value : Value) : Prop :=
  ∃ used, IsAscii used ∧ Writes depth value used

section Ascii

variable {first second : Bytes} {letter : UInt8}

theorem IsAscii.append (isFirst : IsAscii first) (isSecond : IsAscii second) :
    IsAscii (first ++ second) := by
  intro letter member
  exact (List.mem_append.mp member).elim (isFirst letter) (isSecond letter)

theorem IsAscii.cons (small : letter.toNat < 0x80) (isFirst : IsAscii first) :
    IsAscii (letter :: first) :=
  List.forall_mem_cons.mpr ⟨small, isFirst⟩

theorem isAscii_figures (digits : List (Fin 10)) : IsAscii (figures digits) := by
  have small : ∀ digit, (figure digit).toNat < 0x80 := by decide
  intro letter member
  obtain ⟨digit, -, rfl⟩ := List.mem_map.mp member
  exact small digit

theorem exists_letters (isAscii : IsAscii first) : ∃ letters, encode letters = first := by
  induction first with
  | nil => exact ⟨[], rfl⟩
  | cons letter rest inductionHypothesis =>
      obtain ⟨small, others⟩ := List.forall_mem_cons.mp isAscii
      obtain ⟨spelled, spells⟩ := exists_letter_of_one (UInt8.lt_iff_toNat_lt.mpr small)
      obtain ⟨letters, rfl⟩ := inductionHypothesis others
      exact ⟨spelled :: letters, by rw [encode_cons, spells]; rfl⟩

end Ascii

theorem blank_nil : Blank [] :=
  nofun

section Elements

variable {Alpha : Type} {element : Alpha → Bytes → Prop} {items : List Alpha}

theorem exists_moreElements
    (each : ∀ item ∈ items, ∃ used, IsAscii used ∧ element item used) :
    ∃ used, IsAscii used ∧ MoreElements element items used := by
  induction items with
  | nil => exact ⟨[], nofun, .nil blank_nil⟩
  | cons item items inductionHypothesis =>
      obtain ⟨⟨used, isAscii, isElement⟩, others⟩ := List.forall_mem_cons.mp each
      obtain ⟨more, moreAscii, isMore⟩ := inductionHypothesis others
      exact ⟨byte ',' :: used ++ more, .cons (by decide) (isAscii.append moreAscii),
        .cons blank_nil blank_nil isElement isMore⟩

theorem exists_elements (each : ∀ item ∈ items, ∃ used, IsAscii used ∧ element item used) :
    ∃ used, IsAscii used ∧ Elements element items used := by
  cases items with
  | nil => exact ⟨[], nofun, .nil blank_nil⟩
  | cons item items =>
      obtain ⟨⟨used, isAscii, isElement⟩, others⟩ := List.forall_mem_cons.mp each
      obtain ⟨more, moreAscii, isMore⟩ := exists_moreElements others
      exact ⟨used ++ more, isAscii.append moreAscii, .cons blank_nil isElement isMore⟩

end Elements

section Values

variable {depth : Nat} {value : Value} {values : List Value} {members : List (Bytes × Value)}

theorem Writes.ofScalar {used : Bytes} (isScalar : Scalar value used) (depth : Nat) :
    Writes depth value used := by
  cases depth with
  | zero => exact isScalar
  | succ depth => exact .scalar isScalar

theorem writable_null (depth : Nat) : Writable depth .null :=
  ⟨ascii "null", by decide, .ofScalar .null depth⟩

theorem writable_natural {number : Nat} (fits : number < UInt64.size) (depth : Nat) :
    Writable depth (.natural number) := by
  obtain ⟨whole, isWhole, same⟩ := exists_whole number
  have isScalar := scalar_natural_iff.mpr ⟨whole, isWhole, same, fits, rfl⟩
  exact ⟨figures whole, isAscii_figures whole, .ofScalar isScalar depth⟩

theorem writable_array (each : ∀ value ∈ values, Writable depth value) :
    Writable (depth + 1) (.array values) := by
  obtain ⟨used, isAscii, isElements⟩ := exists_elements each
  exact ⟨byte '[' :: used ++ [byte ']'],
    (isAscii.cons (by decide)).append (by decide), .array isElements⟩

def IsPlain (letters : List Char) : Prop :=
  ∀ letter ∈ letters, 0x20 ≤ letter.toNat ∧ letter ≠ '"' ∧ letter ≠ '\\'

instance (letters : List Char) : Decidable (IsPlain letters) :=
  List.decidableBAll _ letters

theorem quoted_encode {letters : List Char} (plain : IsPlain letters) :
    Quoted letters (encode letters) := by
  induction letters with
  | nil => exact .nil
  | cons letter letters inductionHypothesis =>
      obtain ⟨⟨visible, noQuote, noBackslash⟩, others⟩ := List.forall_mem_cons.mp plain
      exact .cons (.itself visible noQuote noBackslash) (inductionHypothesis others)

def IsPlainKey (key : Bytes) : Prop :=
  ∃ letters, IsPlain letters ∧ encode letters = key ∧ IsAscii key

theorem writable_object (keys : ∀ entry ∈ members, IsPlainKey entry.1)
    (each : ∀ entry ∈ members, Writable depth entry.2) :
    Writable (depth + 1) (.object members) := by
  have eachMember : ∀ entry ∈ members, ∃ used, IsAscii used ∧ Member (Writes depth) entry used := by
    rintro ⟨key, value⟩ member
    obtain ⟨letters, plain, rfl, keyAscii⟩ := keys _ member
    obtain ⟨used, isAscii, writes⟩ := each _ member
    have quote : IsAscii [byte '"'] := by decide
    have colon : IsAscii [byte ':'] := by decide
    exact ⟨_, (((keyAscii.cons (by decide)).append quote).append colon).append isAscii,
      .keyed (quoted_encode plain) blank_nil blank_nil writes⟩
  obtain ⟨used, isAscii, isElements⟩ := exists_elements eachMember
  exact ⟨byte '{' :: used ++ [byte '}'],
    (isAscii.cons (by decide)).append (by decide), .object isElements⟩

end Values

end Json

namespace Document

open Json (Bytes Value ascii)

def valueOfSpec (spec : Spec) : Value :=
  .array [.natural spec.arrival.toNat, .natural spec.service.toNat, .natural spec.priority.toNat]

def valueOfConfig (config : Config) : Value :=
  .array [config.quantum.elim .null fun quantum => .natural quantum.toNat,
    config.agingIncrement.elim .null fun increment => .natural increment.toNat,
    .natural config.maxTicks.toNat]

/-- A document that describes a workload. -/
def valueOf (workload : Workload) : Value :=
  match workload.config with
  | none => .array (workload.jobs.map valueOfSpec)
  | some config => .object [(ascii "processes", .array (workload.jobs.map valueOfSpec)),
      (ascii "config", valueOfConfig config)]

theorem isSpec_valueOfSpec (spec : Spec) : IsSpec (valueOfSpec spec) spec :=
  .record (.list (Nat.le_refl 3)) rfl rfl (.written rfl)

theorem isConfig_valueOfConfig (config : Config) : IsConfig (valueOfConfig config) config := by
  refine .record (.list (Nat.le_refl 3)) (.written ?_) (.written ?_) (.written rfl)
  · cases config.quantum with
    | none => exact .null
    | some quantum => exact .given rfl
  · cases config.agingIncrement with
    | none => exact .null
    | some increment => exact .given rfl

theorem describes_valueOf (workload : Workload) : Describes (valueOf workload) workload := by
  obtain ⟨jobs, config⟩ := workload
  have areSpecs : List.Forall₂ IsSpec (jobs.map valueOfSpec) jobs :=
    List.forall₂_map_left_iff.mpr (List.forall₂_same.mpr fun spec _ => isSpec_valueOfSpec spec)
  cases config with
  | none => exact .bare areSpecs
  | some config =>
      let first : Bytes × Value := (ascii "processes", .array (jobs.map valueOfSpec))
      let second : Bytes × Value := (ascii "config", valueOfConfig config)
      have notJobs : ∀ entry ∈ [second], entry.1 ∉ [ascii "processes"] :=
        List.forall_mem_singleton.mpr (show ascii "config" ∉ [ascii "processes"] by decide)
      have notSettings : ∀ entry ∈ [first], entry.1 ∉ [ascii "config"] :=
        List.forall_mem_singleton.mpr (show ascii "processes" ∉ [ascii "config"] by decide)
      have isJobs : IsField [ascii "processes"] [first, second] (some first.2) :=
        .once (show _ = [] ++ first :: [second] from rfl) List.mem_cons_self nofun notJobs
      have isSettings : IsField [ascii "config"] [first, second] (some second.2) :=
        .once (show _ = [first] ++ second :: [] from rfl) List.mem_cons_self notSettings nofun
      exact .request isJobs areSpecs isSettings (.written (.given (isConfig_valueOfConfig config)))

theorem writable_valueOfSpec (depth : Nat) (spec : Spec) :
    Json.Writable (depth + 1) (valueOfSpec spec) := by
  refine Json.writable_array ?_
  simp only [List.forall_mem_cons]
  have inWord : spec.priority.toNat < UInt64.size := Nat.lt_trans spec.priority.toNat_lt (by decide)
  exact ⟨Json.writable_natural spec.arrival.toNat_lt depth,
    Json.writable_natural spec.service.toNat_lt depth, Json.writable_natural inWord depth, nofun⟩

theorem writable_valueOfConfig (depth : Nat) (config : Config) :
    Json.Writable (depth + 1) (valueOfConfig config) := by
  refine Json.writable_array ?_
  simp only [List.forall_mem_cons]
  refine ⟨?_, ?_, Json.writable_natural config.maxTicks.toNat_lt depth, nofun⟩
  · cases config.quantum with
    | none => exact Json.writable_null depth
    | some quantum => exact Json.writable_natural quantum.toNat_lt depth
  · cases config.agingIncrement with
    | none => exact Json.writable_null depth
    | some increment =>
        exact Json.writable_natural (Nat.lt_trans increment.toNat_lt (by decide)) depth

theorem writable_valueOf (workload : Workload) :
    Json.Writable Json.maxDepth (valueOf workload) := by
  obtain ⟨jobs, config⟩ := workload
  have ofJobs (depth : Nat) : Json.Writable (depth + 2) (.array (jobs.map valueOfSpec)) := by
    refine Json.writable_array ?_
    simp only [List.forall_mem_map]
    exact fun spec _ => writable_valueOfSpec depth spec
  cases config with
  | none => exact ofJobs 125
  | some config =>
      refine Json.writable_object ?_ ?_
      · simp only [List.forall_mem_cons]
        exact ⟨⟨"processes".toList, by decide, by decide, by decide⟩,
          ⟨"config".toList, by decide, by decide, by decide⟩, nofun⟩
      · simp only [List.forall_mem_cons]
        exact ⟨ofJobs 124, writable_valueOfConfig 125 config, nofun⟩

theorem toList_loop (bytes : ByteArray) (index : Nat) (before : List UInt8) :
    ByteArray.toList.loop bytes index before = before.reverse ++ bytes.data.toList.drop index := by
  induction index, before using ByteArray.toList.loop.induct bytes with
  | case1 index before inside inductionHypothesis =>
      have inList : index < bytes.data.toList.length := by simpa using inside
      have next : bytes.get! index = bytes.data.toList[index] := by
        simp only [ByteArray.get!, Array.getElem_toList]
        exact getElem!_pos bytes.data index (by simpa using inside)
      rw [ByteArray.toList.loop, if_pos inside, inductionHypothesis, next,
        List.drop_eq_getElem_cons inList]
      simp
  | case2 index before outside =>
      have beyond : bytes.data.toList.length ≤ index := by simpa using outside
      rw [ByteArray.toList.loop, if_neg outside, List.drop_eq_nil_of_le beyond, List.append_nil]

theorem bytesOf_ofList (letters : List Char) :
    bytesOf (String.ofList letters) = Json.encode letters := by
  rw [bytesOf, String.toUTF8, String.toByteArray_ofList, List.utf8Encode, ByteArray.toList,
    toList_loop, List.reverse_nil, List.nil_append, List.drop_zero, List.toList_data_toByteArray]
  rfl

/-- Every workload is that of some text. -/
theorem exists_ofText (workload : Workload) : ∃ text, ofText text = .ok workload := by
  obtain ⟨used, isAscii, writes⟩ := writable_valueOf workload
  obtain ⟨letters, rfl⟩ := Json.exists_letters isAscii
  have isText : Json.IsText (valueOf workload) ([] ++ Json.encode letters ++ []) :=
    .mk Json.blank_nil writes Json.blank_nil
  rw [List.nil_append, List.append_nil, ← bytesOf_ofList] at isText
  exact ⟨_, ofText_eq_ok_iff.mpr ⟨_, isText, describes_valueOf workload⟩⟩

end Document

end CpuScheduling
