import UciProtocol.Numeral

/-! Numbers that are written are read back.

A numeral that is written has a sign only where the number is negative, and no leading zeros. What
has been read of it on the way is closer to zero than the number, so a range that holds zero and
the number is never left.
-/

set_option autoImplicit false

namespace UciProtocol.Numeral

variable {range : Range}

/-! ### Digits -/

theorem digitValue_digitChar {n : Nat} (digit : n < 10) : digitValue n.digitChar = n := by
  rw [digitValue, Nat.toNat_digitChar_of_lt_ten digit]
  have zero : '0'.toNat = 48 := rfl
  rw [zero, Nat.add_sub_cancel_left]

theorem readDigits_append (sign value : Int) (front back : List Char) :
    readDigits range sign value (front ++ back) =
      (readDigits range sign value front).bind fun next => readDigits range sign next back := by
  induction front generalizing value with
  | nil => rfl
  | cons c front ih =>
    rw [List.cons_append, readDigits, readDigits]
    dsimp only
    split
    · split
      · exact ih _
      · rfl
    · rfl

theorem readDigits_digitChar {sign value : Int} {n : Nat} (digit : n < 10)
    (fits : range.Contains (10 * value + sign * n)) :
    readDigits range sign value [n.digitChar] = .ok (10 * value + sign * n) := by
  have isDigit : n.digitChar.isDigit = true := by simpa using digit
  rw [readDigits, if_pos isDigit, digitValue_digitChar digit]
  dsimp only
  rw [if_pos fits, readDigits]

-- The induction is on the digits from the last one: those before it write a tenth of the number.
theorem readDigits_toDigits {sign : Int} {n : Nat}
    (fits : ∀ m : Nat, m ≤ n → range.Contains (sign * m)) :
    readDigits range sign 0 (Nat.toDigits 10 n) = .ok (sign * n) := by
  induction n using Nat.strongRecOn with
  | ind n ih =>
    by_cases small : n < 10
    · have whole : 10 * 0 + sign * (n : Int) = sign * n := by omega
      have last : range.Contains (10 * 0 + sign * (n : Int)) := by
        rw [whole]
        exact fits n (Nat.le_refl n)
      rw [Nat.toDigits_of_lt_base small, readDigits_digitChar small last, whole]
    · have tenth := ih (n / 10) (by omega) fun m le => fits m (by omega)
      have cut : ((n / 10 : Nat) : Int) * 10 + (n % 10 : Nat) = n := by omega
      have whole : 10 * (sign * (n / 10 : Nat)) + sign * (n % 10 : Nat) = sign * n := by
        rw [← cut, Int.mul_add, Int.mul_comm 10, Int.mul_assoc]
      have last : n % 10 < 10 := Nat.mod_lt n (by decide)
      rw [Nat.toDigits_of_base_le (by decide) (Nat.le_of_not_lt small), readDigits_append, tenth]
      exact (readDigits_digitChar last (whole ▸ fits n (Nat.le_refl n))).trans
        (congrArg Except.ok whole)

theorem toDigits_eq_cons (n : Nat) :
    ∃ c rest, Nat.toDigits 10 n = c :: rest ∧ c.isDigit = true := by
  cases same : Nat.toDigits 10 n with
  | nil => exact absurd same Nat.toDigits_ne_nil
  | cons c rest =>
    have member : c ∈ Nat.toDigits 10 n := by simp [same]
    exact ⟨c, rest, rfl, Nat.isDigit_of_mem_toDigits (by decide) (by decide) member⟩

/-! ### Numerals -/

theorem read_digits (n : Nat) :
    read range (Nat.toDigits 10 n) = readDigits range 1 0 (Nat.toDigits 10 n) := by
  obtain ⟨c, rest, same, digit⟩ := toDigits_eq_cons n
  rw [same]
  unfold read
  split
  next empty => cases empty
  next signed => cases signed; cases digit
  next signed => cases signed; cases digit
  next => rfl

theorem read_negative (n : Nat) :
    read range ('-' :: Nat.toDigits 10 n) = readDigits range (-1) 0 (Nat.toDigits 10 n) := by
  obtain ⟨c, rest, same, _⟩ := toDigits_eq_cons n
  rw [same]
  rfl

theorem toList_repr (value : Int) :
    value.repr.toList = (if value < 0 then ['-'] else []) ++ Nat.toDigits 10 value.natAbs := by
  cases value with
  | ofNat n => exact Nat.toList_repr
  | negSucc n =>
    rw [Int.repr, String.toList_append, Nat.toList_repr, if_pos (Int.negSucc_lt_zero n)]
    rfl

theorem read_repr {value : Int} (zero : range.Contains 0) (fits : range.Contains value) :
    read range value.repr.toList = .ok value := by
  obtain ⟨low, high⟩ := zero
  obtain ⟨least, greatest⟩ := fits
  rw [toList_repr]
  by_cases negative : value < 0
  · have between : ∀ m : Nat, m ≤ value.natAbs → range.Contains (-1 * m) :=
      fun m le => ⟨by omega, by omega⟩
    rw [if_pos negative, List.singleton_append, read_negative, readDigits_toDigits between]
    exact congrArg Except.ok (by omega)
  · have between : ∀ m : Nat, m ≤ value.natAbs → range.Contains (1 * m) :=
      fun m le => ⟨by omega, by omega⟩
    rw [if_neg negative, List.nil_append, read_digits, readDigits_toDigits between]
    exact congrArg Except.ok (by omega)

/-! ### Numbers of a width -/

theorem Range.int32_contains (value : Int32) : int32.Contains value.toInt :=
  ⟨Int32.minValue_le_toInt value, Int32.toInt_le value⟩

theorem Range.int64_contains (value : Int64) : int64.Contains value.toInt :=
  ⟨Int64.minValue_le_toInt value, Int64.toInt_le value⟩

theorem Range.Contains.toInt_int32 {value : Int} (inside : int32.Contains value) :
    (Int32.ofInt value).toInt = value :=
  Int32.toInt_ofInt_of_le inside.1 (Int.lt_add_one_of_le inside.2)

theorem Range.Contains.toInt_int64 {value : Int} (inside : int64.Contains value) :
    (Int64.ofInt value).toInt = value :=
  Int64.toInt_ofInt_of_le inside.1 (Int.lt_add_one_of_le inside.2)

theorem readInt32_writeInt32 (value : Int32) : readInt32 (writeInt32 value) = .ok value := by
  rw [readInt32, writeInt32, read_repr (by decide) (Range.int32_contains value)]
  exact congrArg Except.ok (Int32.ofInt_toInt value)

theorem readInt64_writeInt64 (value : Int64) : readInt64 (writeInt64 value) = .ok value := by
  rw [readInt64, writeInt64, read_repr (by decide) (Range.int64_contains value)]
  exact congrArg Except.ok (Int64.ofInt_toInt value)

-- What is written holds a digit, and nothing but digits and a sign.
theorem writeInt32_digits (value : Int32) :
    (∃ c ∈ (writeInt32 value).toList, c.isDigit = true) ∧
      ∀ c ∈ (writeInt32 value).toList, c = '-' ∨ c.isDigit = true := by
  obtain ⟨digit, rest, same, isDigit⟩ := toDigits_eq_cons value.toInt.natAbs
  rw [writeInt32, toList_repr]
  constructor
  · exact ⟨digit, by simp [same], isDigit⟩
  · intro c member
    rcases List.mem_append.1 member with sign | digits
    · left
      split at sign
      · exact List.mem_singleton.1 sign
      · cases sign
    · exact .inr (Nat.isDigit_of_mem_toDigits (by decide) (by decide) digits)

end UciProtocol.Numeral
