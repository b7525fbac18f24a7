/-! Moves and their coordinate notation.

A castling move is held as the king's square and the castling rook's square. Chess960 notation
writes it so; standard notation writes the square where the king comes to stand. -/

set_option autoImplicit false

namespace UciProtocol

/-- A square by file and rank, both counted from zero. -/
structure Square where
  file : UInt8
  rank : UInt8
  deriving DecidableEq, Repr

namespace Square

def OnBoard (square : Square) : Prop := square.file < 8 ∧ square.rank < 8

instance (square : Square) : Decidable square.OnBoard := inferInstanceAs (Decidable (_ ∧ _))

/-- The letter of the file and the number of the rank. They are sums of bytes, which start over
behind the last byte. -/
def text (square : Square) : String :=
  let file := 'a'.toUInt8 + square.file
  let rank := square.rank + 1
  String.ofList (.ofUInt8 file :: Nat.toDigits 10 rank.toNat)

def ofChars? (file rank : Char) : Option Square :=
  if 'a' ≤ file ∧ file ≤ 'h' ∧ '1' ≤ rank ∧ rank ≤ '8' then
    some ⟨.ofNat (file.toNat - 'a'.toNat), .ofNat (rank.toNat - '1'.toNat)⟩
  else none

end Square

inductive Promotion where
  | knight
  | bishop
  | rook
  | queen
  deriving DecidableEq, Repr

namespace Promotion

def letter : Promotion → Char
  | knight => 'n'
  | bishop => 'b'
  | rook => 'r'
  | queen => 'q'

def ofLetter? : Char → Option Promotion
  | 'n' => some knight
  | 'b' => some bishop
  | 'r' => some rook
  | 'q' => some queen
  | _ => none

end Promotion

inductive Move where
  | plain (origin target : Square) (promotion : Option Promotion)
  | castling (king rook : Square)
  deriving DecidableEq, Repr

namespace Move

/-- The move of a side that passes. It is held as a move from a1 to a1. -/
def null : Move := plain ⟨0, 0⟩ ⟨0, 0⟩ none

def isNull (move : Move) : Bool := move = null

def isCastling : Move → Bool
  | plain .. => false
  | castling .. => true

/-- Where the king stands after castling: the g file towards a rook on a higher file, else the
c file. -/
def kingTarget (king rook : Square) : Square :=
  ⟨if rook.file > king.file then 6 else 2, king.rank⟩

def text (chess960 : Bool) (move : Move) : String :=
  if move = null then "0000"
  else
    match move with
    | plain origin target promotion =>
      origin.text ++ target.text ++ String.ofList (promotion.map Promotion.letter).toList
    | castling king rook =>
      king.text ++ (if chess960 then rook else kingTarget king rook).text

/-- Read coordinate notation. Castling cannot be told from a king's move without a board, so no
text is read as castling. -/
def ofChars? : List Char → Option Move
  | ['0', '0', '0', '0'] => some null
  | [file, rank, file', rank'] => do
    let origin ← Square.ofChars? file rank
    let target ← Square.ofChars? file' rank'
    return plain origin target none
  | [file, rank, file', rank', letter] => do
    let origin ← Square.ofChars? file rank
    let target ← Square.ofChars? file' rank'
    let promotion ← Promotion.ofLetter? letter
    return plain origin target (some promotion)
  | _ => none

def ofText? (text : String) : Option Move := ofChars? text.toList

def refusal (text : String) : String := s!"invalid move '{text}'"

structure Unread where
  text : String
  deriving DecidableEq, Repr

def Unread.message (unread : Unread) : String := refusal unread.text

def read (text : String) : Except Unread Move :=
  match ofText? text with
  | some move => .ok move
  | none => .error ⟨text⟩

end Move

end UciProtocol
