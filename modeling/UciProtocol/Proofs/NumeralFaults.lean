import UciProtocol.Proofs.SpelledNumbers

/-! Why a text is no number.

Some text in front of a faulty numeral may already write a number that is out of the range; then it
does not matter what follows it. Where there is none, a character was met that is no digit, or there
were no digits. A limit of a search tells the two apart, a setting does not.
-/

set_option autoImplicit false

namespace UciProtocol

namespace Numeral

variable {range : Range}

/-- A text writes a number, of whatever size, in decimal digits, perhaps with a sign. -/
def Writes (text : List Char) (value : Int) : Prop :=
  ∃ mark sign digits, text = mark ++ digits ∧
    (mark, sign) ∈ [([], 1), (['+'], 1), (['-'], (-1 : Int))] ∧
    digits ≠ [] ∧ (∀ c ∈ digits, c.isDigit = true) ∧ value = sign * decimal 0 digits

/-- The text, or some text in front of it, writes a number that is out of the range. -/
def Strays (range : Range) (text : List Char) : Prop :=
  ∃ front value, front <+: text ∧ Writes front value ∧ ¬ range.Contains value

/-- What a result of reading a text tells about it. -/
def Tells (range : Range) (text : List Char) : Except Fault Int → Prop
  | .ok value => Writes text value ∧ range.Contains value
  | .error .empty => text = []
  | .error .overflow => Strays range text
  | .error .invalidDigit =>
    text ≠ [] ∧ ¬ Strays range text ∧ ∀ value, Writes text value → ¬ range.Contains value

section
variable {sign value : Int} {digits text : List Char}

theorem spells_iff : Spells range text value ↔ Writes text value ∧ range.Contains value := by
  constructor
  · rintro ⟨mark, sign, digits, cut, signed, nonempty, all, same, fits⟩
    exact ⟨⟨mark, sign, digits, cut, signed, nonempty, all, same⟩, fits⟩
  · rintro ⟨⟨mark, sign, digits, cut, signed, nonempty, all, same⟩, fits⟩
    exact ⟨mark, sign, digits, cut, signed, nonempty, all, same, fits⟩

/-! ### Digits -/

-- The induction is on the digits from the first; the one that leaves the range ends the reading.
theorem readDigits_eq_overflow_iff {begun : Int} (fits : range.Contains (sign * begun)) :
    readDigits range sign (sign * begun) digits = .error .overflow ↔
      ∃ front, front <+: digits ∧ (∀ c ∈ front, c.isDigit = true) ∧
        ¬ range.Contains (sign * decimal begun front) := by
  induction digits generalizing begun with
  | nil =>
    refine iff_of_false (by simp [readDigits]) ?_
    rintro ⟨front, begins, -, outside⟩
    rw [List.prefix_nil.1 begins] at outside
    exact outside fits
  | cons c digits ih =>
    have next : 10 * (sign * begun) + sign * digitValue c = sign * (10 * begun + digitValue c) := by
      rw [Int.mul_add, Int.mul_left_comm]
    rw [readDigits, next]
    dsimp only
    by_cases digit : c.isDigit = true
    · rw [if_pos digit]
      by_cases inside : range.Contains (sign * (10 * begun + digitValue c))
      · rw [if_pos inside, ih inside]
        constructor
        · rintro ⟨front, begins, all, outside⟩
          exact ⟨c :: front, List.cons_prefix_cons.2 ⟨rfl, begins⟩,
            List.forall_mem_cons.2 ⟨digit, all⟩, outside⟩
        · rintro ⟨front, begins, all, outside⟩
          rcases List.prefix_cons_iff.1 begins with rfl | ⟨rest, rfl, later⟩
          · exact absurd fits outside
          · exact ⟨rest, later, (List.forall_mem_cons.1 all).2, outside⟩
      · rw [if_neg inside]
        exact iff_of_true rfl ⟨[c], by simp, by simpa using digit, inside⟩
    · rw [if_neg digit]
      refine iff_of_false (by simp) ?_
      rintro ⟨front, begins, all, outside⟩
      rcases List.prefix_cons_iff.1 begins with rfl | ⟨rest, rfl, -⟩
      · exact outside fits
      · exact digit (all c List.mem_cons_self)

theorem readDigits_ne_empty {begun : Int} : readDigits range sign begun digits ≠ .error .empty := by
  induction digits generalizing begun with
  | nil => simp [readDigits]
  | cons c digits ih =>
    rw [readDigits]
    dsimp only
    split
    · split
      · exact ih
      · simp
    · simp

/-! ### Signs -/

/-- The sign of a text, as what each digit counts, and what stands behind it. -/
def signed : List Char → Int × List Char
  | '+' :: rest => (1, rest)
  | '-' :: rest => (-1, rest)
  | text => (1, text)

theorem signed_mark (text : List Char) :
    ∃ mark, text = mark ++ (signed text).2 ∧
      (mark, (signed text).1) ∈ [([], 1), (['+'], 1), (['-'], (-1 : Int))] := by
  unfold signed
  split
  next => exact ⟨['+'], rfl, by simp⟩
  next => exact ⟨['-'], rfl, by simp⟩
  next => exact ⟨[], rfl, by simp⟩

theorem signed_cases (c : Char) :
    (c.isDigit = false ∧ ∃ sign, ∀ rest, signed (c :: rest) = (sign, rest)) ∨
      ∀ rest, signed (c :: rest) = (1, c :: rest) := by
  by_cases plus : c = '+'
  · subst plus
    exact .inl ⟨by decide, 1, fun _ => rfl⟩
  · by_cases minus : c = '-'
    · subst minus
      exact .inl ⟨by decide, -1, fun _ => rfl⟩
    · refine .inr fun rest => ?_
      unfold signed
      split
      next same => cases same; exact absurd rfl plus
      next same => cases same; exact absurd rfl minus
      next => rfl

theorem read_signed (some : text ≠ []) :
    read range text = readUnsigned range (signed text).1 (signed text).2 := by
  unfold read signed
  split
  next => exact absurd rfl some
  next => rfl
  next => rfl
  next plus minus =>
    split
    next => exact absurd rfl (plus _)
    next => exact absurd rfl (minus _)
    next => rfl

theorem writes_iff :
    Writes text value ↔ (signed text).2 ≠ [] ∧ (∀ c ∈ (signed text).2, c.isDigit = true) ∧
      value = (signed text).1 * decimal 0 (signed text).2 := by
  constructor
  · rintro ⟨mark, sign, digits, rfl, marked, nonempty, all, rfl⟩
    simp only [List.mem_cons, Prod.mk.injEq, List.not_mem_nil, or_false] at marked
    rcases marked with ⟨rfl, rfl⟩ | ⟨rfl, rfl⟩ | ⟨rfl, rfl⟩
    · cases digits with
      | nil => exact absurd rfl nonempty
      | cons c digits =>
        rcases signed_cases c with ⟨other, -⟩ | plain
        · rw [all c List.mem_cons_self] at other
          cases other
        · rw [List.nil_append, plain]
          exact ⟨nonempty, all, rfl⟩
    · exact ⟨nonempty, all, rfl⟩
    · exact ⟨nonempty, all, rfl⟩
  · rintro ⟨nonempty, all, same⟩
    obtain ⟨mark, cut, marked⟩ := signed_mark text
    exact ⟨mark, _, _, cut, marked, nonempty, all, same⟩

theorem not_writes_nil : ¬ Writes [] value := fun writes => (writes_iff.1 writes).1 rfl

-- What stands in front of a text has its sign, and digits that stand in front of its digits.
theorem strays_iff (zero : range.Contains 0) (some : text ≠ []) :
    Strays range text ↔ ∃ front, front <+: (signed text).2 ∧ (∀ c ∈ front, c.isDigit = true) ∧
      ¬ range.Contains ((signed text).1 * decimal 0 front) := by
  have counted {sign : Int} {front : List Char}
      (outside : ¬ range.Contains (sign * decimal 0 front)) : front ≠ [] := by
    rintro rfl
    rw [decimal, List.foldl_nil, Int.mul_zero] at outside
    exact outside zero
  cases text with
  | nil => exact absurd rfl some
  | cons c text =>
    constructor
    · rintro ⟨front, value, begins, writes, outside⟩
      rcases List.prefix_cons_iff.1 begins with rfl | ⟨front, rfl, later⟩
      · exact absurd writes not_writes_nil
      · obtain ⟨-, all, rfl⟩ := writes_iff.1 writes
        rcases signed_cases c with ⟨-, sign, marked⟩ | plain
        · rw [marked] at all outside ⊢
          exact ⟨front, later, all, outside⟩
        · rw [plain] at all outside ⊢
          exact ⟨c :: front, begins, all, outside⟩
    · rintro ⟨front, begins, all, outside⟩
      rcases signed_cases c with ⟨-, sign, marked⟩ | plain
      · rw [marked] at begins outside
        refine ⟨c :: front, _, List.cons_prefix_cons.2 ⟨rfl, begins⟩, writes_iff.2 ?_, outside⟩
        rw [marked]
        exact ⟨counted outside, all, rfl⟩
      · rw [plain] at begins outside
        rcases List.prefix_cons_iff.1 begins with rfl | ⟨rest, rfl, -⟩
        · exact absurd rfl (counted outside)
        · refine ⟨c :: rest, _, begins, writes_iff.2 ?_, outside⟩
          rw [plain]
          exact ⟨List.cons_ne_nil c rest, all, rfl⟩

/-! ### Numerals -/

theorem read_eq_empty_iff : read range text = .error .empty ↔ text = [] := by
  constructor
  · intro failed
    apply Decidable.byContradiction
    intro some
    rw [read_signed some] at failed
    cases digits : (signed text).2 with
    | nil => rw [digits] at failed; cases failed
    | cons c rest =>
      rw [digits] at failed
      exact readDigits_ne_empty failed
  · rintro rfl
    rfl

theorem read_eq_overflow_iff (zero : range.Contains 0) :
    read range text = .error .overflow ↔ Strays range text := by
  by_cases empty : text = []
  · subst empty
    refine iff_of_false nofun ?_
    rintro ⟨front, value, begins, writes, -⟩
    rw [List.prefix_nil.1 begins] at writes
    exact not_writes_nil writes
  · have start : (signed text).1 * 0 = 0 := Int.mul_zero _
    have fits : range.Contains ((signed text).1 * 0) := by rwa [start]
    rw [read_signed empty, strays_iff zero empty, ← readDigits_eq_overflow_iff fits, start]
    cases (signed text).2 with
    | nil => exact iff_of_false nofun nofun
    | cons c rest => rfl

/-- A text is read with just the result that tells the truth about it. -/
theorem read_eq_iff (zero : range.Contains 0) {result : Except Fault Int} :
    read range text = result ↔ Tells range text result := by
  have good : ∀ value, read range text = .ok value ↔ Tells range text (.ok value) :=
    fun value => (read_eq_ok_iff zero).trans spells_iff
  have empty : read range text = .error .empty ↔ Tells range text (.error .empty) :=
    read_eq_empty_iff
  have strays : read range text = .error .overflow ↔ Tells range text (.error .overflow) :=
    read_eq_overflow_iff zero
  match result with
  | .ok value => exact good value
  | .error .empty => exact empty
  | .error .overflow => exact strays
  | .error .invalidDigit =>
    -- What is left when the other three results are out of the question.
    constructor
    · intro failed
      refine ⟨fun is => ?_, fun is => ?_, fun value writes fits => ?_⟩
      · rw [empty.2 is] at failed
        cases failed
      · rw [strays.2 is] at failed
        cases failed
      · rw [(good value).2 ⟨writes, fits⟩] at failed
        cases failed
    · rintro ⟨some, inside, other⟩
      match found : read range text with
      | .ok value =>
        have ⟨writes, fits⟩ := (good value).1 found
        exact absurd fits (other value writes)
      | .error .empty => exact absurd (empty.1 found) some
      | .error .overflow => exact absurd (strays.1 found) inside
      | .error .invalidDigit => rfl

end

section
variable {text : String}

-- Every number in the range is one of the type, so it is read just where it is written.
theorem exists_ok_iff {α : Type} {found : Except Fault α} {toInt : α → Int} {ofInt : Int → α}
    (law : ∀ n, found = .ok n ↔ Spells range text.toList (toInt n))
    (fits : ∀ value, range.Contains value → toInt (ofInt value) = value) (value : Int) :
    (∃ n, found = .ok n ∧ toInt n = value) ↔
      Writes text.toList value ∧ range.Contains value := by
  rw [← spells_iff]
  constructor
  · rintro ⟨n, read, rfl⟩
    exact (law n).1 read
  · intro spells
    have same := fits value spells.contains
    exact ⟨ofInt value, (law _).2 (by rwa [same]), same⟩

theorem readInt32_iff (value : Int) :
    (∃ n, readInt32 text = .ok n ∧ n.toInt = value) ↔
      Writes text.toList value ∧ Range.int32.Contains value :=
  exists_ok_iff (fun _ => readInt32_eq_ok_iff) (fun _ inside => inside.toInt_int32) value

theorem readInt64_iff (value : Int) :
    (∃ n, readInt64 text = .ok n ∧ n.toInt = value) ↔
      Writes text.toList value ∧ Range.int64.Contains value :=
  exists_ok_iff (fun _ => readInt64_eq_ok_iff) (fun _ inside => inside.toInt_int64) value

theorem readInt32_eq_ok_iff_writes {n : Int32} :
    readInt32 text = .ok n ↔ Writes text.toList n.toInt := by
  rw [readInt32_eq_ok_iff, spells_iff]
  exact and_iff_left (Range.int32_contains n)

theorem readInt32_eq_error_iff {fault : Fault} :
    readInt32 text = .error fault ↔ Tells .int32 text.toList (.error fault) := by
  rw [readInt32, map_eq_error_iff, read_eq_iff (by decide)]

end

end Numeral

open Numeral

/-! ### Limits -/

/-- Why a text is no number for a limit. -/
inductive Search.Misnumbered (keyword text : String) : RequestError → Prop where
  | missing : text = "" → Misnumbered keyword text (.missingNumber keyword)
  | outOfRange : Strays .int32 text.toList → Misnumbered keyword text (.numberOutOfRange text)
  | invalid : text ≠ "" → ¬ Strays .int32 text.toList →
      (∀ value, Writes text.toList value → ¬ Range.int32.Contains value) →
      Misnumbered keyword text (.invalidNumber text)

theorem Search.number_eq_error_iff {keyword text : String} {error : RequestError} :
    number keyword text = .error error ↔ Misnumbered keyword text error := by
  unfold number
  constructor
  · intro failed
    cases read : readInt32 text with
    | ok n => rw [read] at failed; cases failed
    | error fault =>
      have told := readInt32_eq_error_iff.1 read
      rw [read] at failed
      cases fault with
      | empty =>
        cases failed
        exact .missing (String.toList_eq_nil_iff.1 told)
      | invalidDigit =>
        cases failed
        obtain ⟨some, inside, other⟩ := told
        exact .invalid (fun empty => some (String.toList_eq_nil_iff.2 empty)) inside other
      | overflow =>
        cases failed
        exact .outOfRange told
  · intro misnumbered
    cases misnumbered with
    | missing empty =>
      have told : Tells .int32 text.toList (.error .empty) := String.toList_eq_nil_iff.2 empty
      rw [readInt32_eq_error_iff.2 told]
      rfl
    | outOfRange strays =>
      have told : Tells .int32 text.toList (.error .overflow) := strays
      rw [readInt32_eq_error_iff.2 told]
      rfl
    | invalid some inside other =>
      have told : Tells .int32 text.toList (.error .invalidDigit) :=
        ⟨fun empty => some (String.toList_eq_nil_iff.1 empty), inside, other⟩
      rw [readInt32_eq_error_iff.2 told]
      rfl

/-! ### Settings -/

namespace Setting

variable {name text : String} {default least greatest : Int64}

theorem read_spin_eq_ok_iff {value : Value} :
    read ⟨name, .spin default least greatest⟩ text = .ok value ↔
      ∃ n, value = .int n ∧ readInt64 text = .ok n ∧ least ≤ n ∧ n ≤ greatest := by
  simp only [read]
  cases found : readInt64 text with
  | error fault => simp
  | ok n =>
    dsimp only
    split
    next outside =>
      refine iff_of_false (by simp) ?_
      rintro ⟨_, rfl, same, low, high⟩
      cases same
      exact outside.elim (Int64.not_lt.2 low) (Int64.not_lt.2 high)
    next inside =>
      rw [not_or, Int64.not_lt, Int64.not_lt] at inside
      rw [Except.ok.injEq, eq_comm]
      simp [inside.1, inside.2]

theorem read_spin_eq_error_iff {error : Error} :
    read ⟨name, .spin default least greatest⟩ text = .error error ↔
      (error = .invalidValue name text ∧ ∀ n, readInt64 text ≠ .ok n) ∨
        ∃ n, error = .outOfRange name n least greatest ∧ readInt64 text = .ok n ∧
          ¬ (least ≤ n ∧ n ≤ greatest) := by
  simp only [read]
  cases found : readInt64 text with
  | error fault => simp [eq_comm]
  | ok n =>
    dsimp only
    have range : n < least ∨ greatest < n ↔ ¬ (least ≤ n ∧ n ≤ greatest) := by
      rw [not_and_or, Int64.not_le, Int64.not_le]
    split
    next outside =>
      constructor
      · rintro ⟨⟩
        exact .inr ⟨n, rfl, rfl, range.1 outside⟩
      · rintro (⟨-, none⟩ | ⟨_, rfl, same, -⟩)
        · exact absurd rfl (none n)
        · cases same
          rfl
    next inside =>
      refine iff_of_false (by simp) ?_
      rintro (⟨-, none⟩ | ⟨_, rfl, same, away⟩)
      · exact none n rfl
      · cases same
        exact inside (range.2 away)

end Setting

/-- How numbers are read. A text is accepted just as the number that it writes, if that is in the
range of the type. A limit tells a text that is empty from one that leaves the range, whatever
follows, and from one that is faulty otherwise; a number setting refuses whatever is no number of 64
bits in one way, and a number out of its own bounds in another. What is written is read back. -/
theorem Numeral.numbers_are_read_exactly :
    (∀ (text : String) (value : Int),
      ((∃ n, readInt32 text = .ok n ∧ n.toInt = value) ↔
        Writes text.toList value ∧ Range.int32.Contains value) ∧
      ((∃ n, readInt64 text = .ok n ∧ n.toInt = value) ↔
        Writes text.toList value ∧ Range.int64.Contains value)) ∧
    (∀ keyword text,
      (∀ n, Search.number keyword text = .ok n ↔ readInt32 text = .ok n) ∧
      ∀ error, Search.number keyword text = .error error ↔
        Search.Misnumbered keyword text error) ∧
    (∀ name default least greatest text,
      (∀ value, Setting.read ⟨name, .spin default least greatest⟩ text = .ok value ↔
        ∃ n, value = .int n ∧ readInt64 text = .ok n ∧ least ≤ n ∧ n ≤ greatest) ∧
      ∀ error, Setting.read ⟨name, .spin default least greatest⟩ text = .error error ↔
        (error = .invalidValue name text ∧ ∀ n, readInt64 text ≠ .ok n) ∨
          ∃ n, error = .outOfRange name n least greatest ∧ readInt64 text = .ok n ∧
            ¬ (least ≤ n ∧ n ≤ greatest)) ∧
    (∀ n, readInt32 (writeInt32 n) = .ok n) ∧ ∀ n, readInt64 (writeInt64 n) = .ok n := by
  refine ⟨fun text value => ⟨readInt32_iff value, readInt64_iff value⟩,
    fun keyword text => ⟨fun n => ?_, ?_⟩,
    fun name default least greatest text => ⟨fun value => ?_, fun error => ?_⟩,
    readInt32_writeInt32, readInt64_writeInt64⟩
  · rw [Search.number_eq_ok_iff, readInt32_eq_ok_iff]
  · exact fun error => Search.number_eq_error_iff
  · exact Setting.read_spin_eq_ok_iff
  · exact Setting.read_spin_eq_error_iff

-- The letter behind the second number is not reached: its last digit leaves the range.
example : Search.number "depth" "2147483647x" = .error (.invalidNumber "2147483647x") ∧
    Search.number "depth" "+0002147483648x" = .error (.numberOutOfRange "+0002147483648x") := by
  decide

end UciProtocol
