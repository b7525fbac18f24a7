/-! Bytes read as UTF-8, where each maximal invalid part stands for one replacement character.

The reader is an automaton over single bytes: a sequence that has begun knows which bytes may come
next and how many are due after that one. A byte that cannot come next ends the sequence and is
read again from the start, so no invalid part takes a following character with it. -/

set_option autoImplicit false

namespace UciProtocol.Text.Utf8

def replacement : Char := '\ufffd'

/-- A sequence that has begun: its bits so far, the range of the next byte, and the number of
bytes due after it. -/
structure Begun where
  bits : Nat
  low : UInt8
  high : UInt8
  due : Nat
  deriving DecidableEq, Repr

/-- What a byte does where no sequence has begun. The restricted second bytes rule out overlong
forms, surrogates and values past U+10FFFF. -/
def start (byte : UInt8) : List Char × Option Begun :=
  let n := byte.toNat
  if n < 0x80 then ([Char.ofNat n], none)
  else if 0xc2 ≤ n ∧ n ≤ 0xdf then ([], some ⟨n - 0xc0, 0x80, 0xbf, 0⟩)
  else if n = 0xe0 then ([], some ⟨0, 0xa0, 0xbf, 1⟩)
  else if n = 0xed then ([], some ⟨0xd, 0x80, 0x9f, 1⟩)
  else if 0xe1 ≤ n ∧ n ≤ 0xef then ([], some ⟨n - 0xe0, 0x80, 0xbf, 1⟩)
  else if n = 0xf0 then ([], some ⟨0, 0x90, 0xbf, 2⟩)
  else if 0xf1 ≤ n ∧ n ≤ 0xf3 then ([], some ⟨n - 0xf0, 0x80, 0xbf, 2⟩)
  else if n = 0xf4 then ([], some ⟨4, 0x80, 0x8f, 2⟩)
  else ([replacement], none)

/-- Read one byte: the characters it completes, and the sequence under way after it. -/
def step : Option Begun → UInt8 → List Char × Option Begun
  | none, byte => start byte
  | some begun, byte =>
    if begun.low ≤ byte ∧ byte ≤ begun.high then
      let bits := begun.bits * 64 + (byte.toNat - 0x80)
      match begun.due with
      | 0 => ([Char.ofNat bits], none)
      | due + 1 => ([], some ⟨bits, 0x80, 0xbf, due⟩)
    else
      let (chars, next) := start byte
      (replacement :: chars, next)

/-- Read on from a state; a sequence cut off by the end is invalid. -/
def decodeFrom : Option Begun → List UInt8 → List Char
  | none, [] => []
  | some _, [] => [replacement]
  | state, byte :: rest =>
    let (chars, next) := step state byte
    chars ++ decodeFrom next rest

def decode (bytes : List UInt8) : List Char := decodeFrom none bytes

end UciProtocol.Text.Utf8
