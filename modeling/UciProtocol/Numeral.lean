/-! Decimal numerals with an optional sign, read into a bounded range.

Digits are read from the left. The first digit that takes the value out of the range ends the
reading with `overflow`, whatever follows it; a character that is no digit ends it with
`invalidDigit`, so of two faults the one further left is reported. -/

set_option autoImplicit false

namespace UciProtocol.Numeral

inductive Fault where
  | empty
  | invalidDigit
  | overflow
  deriving DecidableEq, Repr

structure Range where
  low : Int
  high : Int
  deriving DecidableEq, Repr

def Range.Contains (range : Range) (value : Int) : Prop := range.low ≤ value ∧ value ≤ range.high

instance (range : Range) (value : Int) : Decidable (range.Contains value) :=
  inferInstanceAs (Decidable (_ ∧ _))

def Range.int32 : Range := ⟨Int32.minValue.toInt, Int32.maxValue.toInt⟩

def Range.int64 : Range := ⟨Int64.minValue.toInt, Int64.maxValue.toInt⟩

def digitValue (c : Char) : Int := (c.toNat - '0'.toNat : Nat)

/-- Read digits behind a value that has been read; each counts `sign` times its digit value. -/
def readDigits (range : Range) (sign value : Int) : List Char → Except Fault Int
  | [] => .ok value
  | c :: rest =>
    -- What does not count as a digit is noticed before the range is.
    if c.isDigit then
      let next := 10 * value + sign * digitValue c
      if range.Contains next then readDigits range sign next rest else .error .overflow
    else .error .invalidDigit

def readUnsigned (range : Range) (sign : Int) : List Char → Except Fault Int
  | [] => .error .invalidDigit
  | digits => readDigits range sign 0 digits

def read (range : Range) : List Char → Except Fault Int
  | [] => .error .empty
  | '+' :: rest => readUnsigned range 1 rest
  | '-' :: rest => readUnsigned range (-1) rest
  | digits => readUnsigned range 1 digits

def readInt32 (text : String) : Except Fault Int32 :=
  (read .int32 text.toList).map Int32.ofInt

def readInt64 (text : String) : Except Fault Int64 :=
  (read .int64 text.toList).map Int64.ofInt

def writeInt32 (value : Int32) : String := value.toInt.repr

def writeInt64 (value : Int64) : String := value.toInt.repr

end UciProtocol.Numeral
