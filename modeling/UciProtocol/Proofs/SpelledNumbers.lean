import UciProtocol.Proofs.Invocations
import UciProtocol.Proofs.Numerals
import UciProtocol.Proofs.SettingValues
import UciProtocol.Request.Search

/-! Numbers that are read are the ones that their digits write.

A text is read as a number just if it writes one that is in the range. What has been read of such a
number at any digit is in the range too, so no limit of a search and no number that a setting takes
has wrapped around.
-/

set_option autoImplicit false

namespace UciProtocol

namespace Numeral

variable {range : Range}

/-- The number that digits write behind a number that has been written. -/
def decimal (begun : Int) (digits : List Char) : Int :=
  digits.foldl (fun value c => 10 * value + digitValue c) begun

def Counts (range : Range) (sign : Int) (digits : List Char) (value : Int) : Prop :=
  digits ≠ [] ∧ (∀ c ∈ digits, c.isDigit = true) ∧ value = sign * decimal 0 digits ∧
    range.Contains value

/-- A text writes a number of the range in decimal digits, perhaps with a sign. -/
def Spells (range : Range) (text : List Char) (value : Int) : Prop :=
  ∃ mark sign digits, text = mark ++ digits ∧
    (mark, sign) ∈ [([], 1), (['+'], 1), (['-'], (-1 : Int))] ∧ Counts range sign digits value

section
variable {sign value : Int} {digits text : List Char}

theorem decimal_cons (begun : Int) (c : Char) (digits : List Char) :
    decimal begun (c :: digits) = decimal (10 * begun + digitValue c) digits := rfl

theorem decimal_append (begun : Int) (front back : List Char) :
    decimal begun (front ++ back) = decimal (decimal begun front) back :=
  List.foldl_append

theorem le_decimal {begun : Int} (positive : 0 ≤ begun) (digits : List Char) :
    begun ≤ decimal begun digits := by
  induction digits generalizing begun with
  | nil => exact Int.le_refl begun
  | cons c digits ih =>
    have digit : 0 ≤ digitValue c := Int.natCast_nonneg _
    have next : 0 ≤ 10 * begun + digitValue c := by omega
    have rest := ih next
    rw [decimal_cons]
    omega

-- What the first digits write is closer to zero than what all of them do.
theorem contains_front (zero : range.Contains 0) (unit : sign = 1 ∨ sign = -1)
    (fits : range.Contains (sign * decimal 0 digits)) {front : List Char}
    (begins : front <+: digits) : range.Contains (sign * decimal 0 front) := by
  obtain ⟨back, rfl⟩ := begins
  have low := le_decimal (Int.le_refl 0) front
  have high := le_decimal low back
  rw [decimal_append] at fits
  obtain ⟨least, most⟩ := zero
  obtain ⟨lower, upper⟩ := fits
  rcases unit with rfl | rfl
  · exact ⟨by omega, by omega⟩
  · exact ⟨by omega, by omega⟩

-- The induction is on the digits from the first, with the number that has been written before it.
theorem readDigits_eq_ok_iff {begun : Int} (fits : range.Contains (sign * begun)) :
    readDigits range sign (sign * begun) digits = .ok value ↔
      (∀ c ∈ digits, c.isDigit = true) ∧ value = sign * decimal begun digits ∧
        ∀ front, front <+: digits → range.Contains (sign * decimal begun front) := by
  induction digits generalizing begun with
  | nil =>
    rw [readDigits, Except.ok.injEq, eq_comm]
    simp [decimal, fits]
  | cons c digits ih =>
    have next : 10 * (sign * begun) + sign * digitValue c = sign * (10 * begun + digitValue c) := by
      rw [Int.mul_add, Int.mul_left_comm]
    rw [readDigits, next]
    simp only [List.forall_mem_cons, List.prefix_cons_iff, decimal_cons]
    by_cases digit : c.isDigit = true
    · by_cases inside : range.Contains (sign * (10 * begun + digitValue c))
      · rw [if_pos digit, if_pos inside, ih inside]
        constructor
        · rintro ⟨all, same, front⟩
          refine ⟨⟨digit, all⟩, same, ?_⟩
          rintro _ (rfl | ⟨rest, rfl, begins⟩)
          · exact fits
          · exact front rest begins
        · rintro ⟨⟨-, all⟩, same, front⟩
          exact ⟨all, same, fun rest begins => front (c :: rest) (.inr ⟨rest, rfl, begins⟩)⟩
      · rw [if_pos digit, if_neg inside]
        refine iff_of_false (by simp) ?_
        rintro ⟨-, -, front⟩
        exact inside (front [c] (.inr ⟨[], rfl, List.nil_prefix⟩))
    · rw [if_neg digit]
      refine iff_of_false (by simp) ?_
      rintro ⟨all, -⟩
      exact digit all.1

theorem readUnsigned_eq_ok_iff (zero : range.Contains 0) (unit : sign = 1 ∨ sign = -1) :
    readUnsigned range sign digits = .ok value ↔ Counts range sign digits value := by
  have start : sign * 0 = 0 := Int.mul_zero sign
  cases digits with
  | nil => exact iff_of_false nofun fun counts => counts.1 rfl
  | cons c digits =>
    have fits : range.Contains (sign * 0) := by rwa [start]
    have first : readUnsigned range sign (c :: digits) =
        readDigits range sign (sign * 0) (c :: digits) := by
      rw [start]
      rfl
    rw [first, readDigits_eq_ok_iff fits]
    constructor
    · rintro ⟨all, rfl, front⟩
      exact ⟨List.cons_ne_nil c digits, all, rfl, front _ (List.prefix_refl _)⟩
    · rintro ⟨-, all, rfl, whole⟩
      exact ⟨all, rfl, fun front begins => contains_front zero unit whole begins⟩

/-- A text is read just as the number of the range that it writes. -/
theorem read_eq_ok_iff (zero : range.Contains 0) :
    read range text = .ok value ↔ Spells range text value := by
  constructor
  · intro found
    unfold read at found
    split at found
    next => cases found
    next rest =>
      exact ⟨['+'], 1, rest, rfl, by simp, (readUnsigned_eq_ok_iff zero (.inl rfl)).1 found⟩
    next rest =>
      exact ⟨['-'], -1, rest, rfl, by simp, (readUnsigned_eq_ok_iff zero (.inr rfl)).1 found⟩
    next => exact ⟨[], 1, text, rfl, by simp, (readUnsigned_eq_ok_iff zero (.inl rfl)).1 found⟩
  · rintro ⟨mark, sign, digits, rfl, signed, counts⟩
    simp only [List.mem_cons, Prod.mk.injEq, List.not_mem_nil, or_false] at signed
    rcases signed with ⟨rfl, rfl⟩ | ⟨rfl, rfl⟩ | ⟨rfl, rfl⟩
    · have ⟨nonempty, all, _⟩ := counts
      rw [List.nil_append]
      unfold read
      split
      next => exact absurd rfl nonempty
      next => exact absurd (all '+' (by simp)) (by decide)
      next => exact absurd (all '-' (by simp)) (by decide)
      next => exact (readUnsigned_eq_ok_iff zero (.inl rfl)).2 counts
    · exact (readUnsigned_eq_ok_iff zero (.inl rfl)).2 counts
    · exact (readUnsigned_eq_ok_iff zero (.inr rfl)).2 counts

example : read .int32 ['2', '1', '4', '7', '4', '8', '3', '6', '4', '8'] = .error .overflow := by
  decide

theorem Spells.contains (spells : Spells range text value) : range.Contains value := by
  obtain ⟨_, _, _, -, -, -, -, -, fits⟩ := spells
  exact fits

end

/-- A number of 32 bits is read just where the text writes it, so none has wrapped around. -/
theorem readInt32_eq_ok_iff {text : String} {n : Int32} :
    readInt32 text = .ok n ↔ Spells .int32 text.toList n.toInt := by
  rw [readInt32, map_eq_ok_iff, ← read_eq_ok_iff (by decide)]
  constructor
  · rintro ⟨value, found, rfl⟩
    rwa [((read_eq_ok_iff (by decide)).1 found).contains.toInt_int32]
  · exact fun found => ⟨n.toInt, found, Int32.ofInt_toInt n⟩

/-- A number of 64 bits is read just where the text writes it. -/
theorem readInt64_eq_ok_iff {text : String} {n : Int64} :
    readInt64 text = .ok n ↔ Spells .int64 text.toList n.toInt := by
  rw [readInt64, map_eq_ok_iff, ← read_eq_ok_iff (by decide)]
  constructor
  · rintro ⟨value, found, rfl⟩
    rwa [((read_eq_ok_iff (by decide)).1 found).contains.toInt_int64]
  · exact fun found => ⟨n.toInt, found, Int64.ofInt_toInt n⟩

end Numeral

/-- A limit is read just where its text writes it. -/
theorem Search.number_eq_ok_iff {keyword text : String} {n : Int32} :
    number keyword text = .ok n ↔ Numeral.Spells .int32 text.toList n.toInt := by
  rw [← Numeral.readInt32_eq_ok_iff, number]
  cases Numeral.readInt32 text with
  | ok m => rw [Except.mapError, Except.ok.injEq, Except.ok.injEq]
  | error fault => exact iff_of_false nofun nofun

/-- A setting takes a whole number just where the text writes it, and the number is one that the
setting can have. -/
theorem Setting.read_eq_int_iff {setting : Setting} {text : String} {n : Int64} :
    setting.read text = .ok (.int n) ↔
      setting.Accepts (.int n) ∧ Numeral.Spells .int64 text.toList n.toInt := by
  rw [← Numeral.readInt64_eq_ok_iff]
  constructor
  · intro found
    refine ⟨accepts_of_read found, ?_⟩
    obtain ⟨name, kind⟩ := setting
    cases kind with
    | check default =>
      simp only [Setting.read] at found
      split at found
      · cases found
      · split at found <;> cases found
    | spin default least greatest =>
      simp only [Setting.read] at found
      split at found
      next => cases found
      next same =>
        split at found
        next => cases found
        next =>
          cases found
          exact same
    | combo default choices =>
      simp only [Setting.read] at found
      split at found <;> cases found
    | string default => cases found
  · rintro ⟨accepts, found⟩
    obtain ⟨name, kind⟩ := setting
    cases kind with
    | spin default least greatest =>
      have inside : ¬ (n < least ∨ greatest < n) :=
        not_or.2 ⟨Int64.not_lt.2 accepts.1, Int64.not_lt.2 accepts.2⟩
      simp only [Setting.read, found]
      rw [if_neg inside]
    | check | combo | string => exact absurd accepts id

end UciProtocol
