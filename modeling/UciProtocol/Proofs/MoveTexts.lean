import UciProtocol.Move

/-! Moves in coordinate notation.

A text is read as a move just if it names two squares, with a letter behind them for a promotion,
or is the null move's. What is read stays on the board and is not castling, and it is written as it
was read, but for `a1a1`, which is the null move too.
-/

set_option autoImplicit false

namespace UciProtocol

namespace Square

def Named (file rank : Char) : Prop := 'a' ≤ file ∧ file ≤ 'h' ∧ '1' ≤ rank ∧ rank ≤ '8'

theorem ofChars?_eq_some_iff {file rank : Char} {square : Square} :
    ofChars? file rank = some square ↔
      Named file rank ∧
        ⟨.ofNat (file.toNat - 'a'.toNat), .ofNat (rank.toNat - '1'.toNat)⟩ = square := by
  rw [ofChars?, Option.ite_none_right_eq_some, Option.some.injEq]
  rfl

theorem named_iff {file rank : Char} :
    Named file rank ↔ ∃ square, ofChars? file rank = some square := by
  simp only [ofChars?_eq_some_iff, exists_and_left, exists_eq', and_true]

theorem file_of_named {file rank : Char} (named : Named file rank) :
    97 ≤ file.toNat ∧ file.toNat ≤ 104 := by
  obtain ⟨low, high, -, -⟩ := named
  exact ⟨UInt32.le_iff_toNat_le.1 low, UInt32.le_iff_toNat_le.1 high⟩

theorem rank_of_named {file rank : Char} (named : Named file rank) :
    49 ≤ rank.toNat ∧ rank.toNat ≤ 56 := by
  obtain ⟨-, -, low, high⟩ := named
  exact ⟨UInt32.le_iff_toNat_le.1 low, UInt32.le_iff_toNat_le.1 high⟩

-- On the board no sum goes beyond a byte.
theorem toList_text {square : Square} (inside : square.OnBoard) :
    square.text.toList =
      [Char.ofNat ('a'.toNat + square.file.toNat), (square.rank.toNat + 1).digitChar] := by
  have file : square.file.toNat < 8 := UInt8.lt_iff_toNat_lt.1 inside.1
  have rank : square.rank.toNat < 8 := UInt8.lt_iff_toNat_lt.1 inside.2
  have letter : ('a'.toUInt8 + square.file).toNat = 'a'.toNat + square.file.toNat := by
    rw [UInt8.toNat_add, Nat.mod_eq_of_lt]
    · rfl
    · have a : 'a'.toUInt8.toNat = 97 := rfl
      omega
  have number : (square.rank + 1).toNat = square.rank.toNat + 1 := by
    rw [UInt8.toNat_add, Nat.mod_eq_of_lt]
    · rfl
    · have one : (1 : UInt8).toNat = 1 := rfl
      omega
  have char (byte : UInt8) : Char.ofUInt8 byte = Char.ofNat byte.toNat := by
    have valid : byte.toNat.isValidChar := .inl (by have := byte.toNat_lt; omega)
    apply Char.toNat_inj.1
    rw [Char.ofNat, dif_pos valid]
    rfl
  rw [text, String.toList_ofList, char, letter, number, Nat.toDigits_of_lt_base (by omega)]

section
variable {file rank : Char} {square : Square} (read : ofChars? file rank = some square)
include read

theorem onBoard_of_ofChars? : square.OnBoard := by
  obtain ⟨named, rfl⟩ := ofChars?_eq_some_iff.1 read
  obtain ⟨_, file⟩ := file_of_named named
  obtain ⟨_, rank⟩ := rank_of_named named
  have a : 'a'.toNat = 97 := rfl
  have one : '1'.toNat = 49 := rfl
  have eight : (8 : UInt8).toNat = 8 := rfl
  simp only [OnBoard, UInt8.lt_iff_toNat_lt, UInt8.toNat_ofNat', a, one, eight]
  omega

theorem toList_text_of_ofChars? : square.text.toList = [file, rank] := by
  obtain ⟨named, rfl⟩ := ofChars?_eq_some_iff.1 read
  have ⟨fileLow, fileHigh⟩ := file_of_named named
  have ⟨rankLow, rankHigh⟩ := rank_of_named named
  have a : 'a'.toNat = 97 := rfl
  have one : '1'.toNat = 49 := rfl
  have letter : Char.ofNat ('a'.toNat + (UInt8.ofNat (file.toNat - 'a'.toNat)).toNat) = file := by
    rw [UInt8.toNat_ofNat', Nat.mod_eq_of_lt (by omega), Nat.add_sub_cancel' (a ▸ fileLow),
      Char.ofNat_toNat]
  have digit : ((UInt8.ofNat (rank.toNat - '1'.toNat)).toNat + 1).digitChar = rank := by
    rw [UInt8.toNat_ofNat', Nat.mod_eq_of_lt (by omega)]
    apply Char.toNat_inj.1
    rw [Nat.toNat_digitChar_of_lt_ten (by omega)]
    have zero : '0'.toNat = 48 := rfl
    omega
  rw [toList_text (onBoard_of_ofChars? read), letter, digit]

end

end Square

namespace Move

inductive Coordinates : List Char → Prop where
  | null : Coordinates ['0', '0', '0', '0']
  | plain {file rank file' rank' : Char} : Square.Named file rank → Square.Named file' rank' →
      Coordinates [file, rank, file', rank']
  | promotion {file rank file' rank' letter : Char} : Square.Named file rank →
      Square.Named file' rank' → letter ∈ ['n', 'b', 'r', 'q'] →
      Coordinates [file, rank, file', rank', letter]

def IsText (text : String) : Prop := Coordinates text.toList

def OnBoard : Move → Prop
  | plain origin target _ => origin.OnBoard ∧ target.OnBoard
  | castling king rook => king.OnBoard ∧ rook.OnBoard

instance (move : Move) : Decidable move.OnBoard :=
  match move with
  | plain .. | castling .. => inferInstanceAs (Decidable (_ ∧ _))

/-- The square that is written behind the king's. -/
theorem onBoard_target {king rook : Square} (inside : (castling king rook).OnBoard)
    (chess960 : Bool) : (if chess960 then rook else kingTarget king rook).OnBoard := by
  split
  · exact inside.2
  · refine ⟨?_, inside.1.2⟩
    unfold kingTarget
    dsimp only
    split <;> decide

theorem ofLetter?_eq_some_iff {letter : Char} {promotion : Promotion} :
    Promotion.ofLetter? letter = some promotion ↔ promotion.letter = letter := by
  constructor
  · intro read
    unfold Promotion.ofLetter? at read
    split at read <;> cases read <;> rfl
  · rintro rfl
    cases promotion <;> rfl

theorem mem_letters_iff {letter : Char} :
    letter ∈ ['n', 'b', 'r', 'q'] ↔ ∃ promotion, Promotion.ofLetter? letter = some promotion := by
  simp only [ofLetter?_eq_some_iff]
  constructor
  · intro member
    simp only [List.mem_cons, List.not_mem_nil, or_false] at member
    rcases member with rfl | rfl | rfl | rfl
    · exact ⟨.knight, rfl⟩
    · exact ⟨.bishop, rfl⟩
    · exact ⟨.rook, rfl⟩
    · exact ⟨.queen, rfl⟩
  · rintro ⟨promotion, rfl⟩
    cases promotion <;> decide

-- What is read is the null move or names its two squares and its promotion.
theorem ofChars?_cases {chars : List Char} {move : Move} (read : ofChars? chars = some move) :
    (chars = ['0', '0', '0', '0'] ∧ move = null) ∨
    ∃ origin target promotion, move = plain origin target promotion ∧
      origin.OnBoard ∧ target.OnBoard ∧
      chars = origin.text.toList ++ target.text.toList ++
        (promotion.map Promotion.letter).toList := by
  unfold ofChars? at read
  split at read
  · cases read
    exact .inl ⟨rfl, rfl⟩
  · simp only [Option.bind_eq_bind, Option.bind_eq_some_iff, Option.pure_def,
      Option.some.injEq] at read
    obtain ⟨origin, first, target, second, rfl⟩ := read
    refine .inr ⟨origin, target, none, rfl, Square.onBoard_of_ofChars? first,
      Square.onBoard_of_ofChars? second, ?_⟩
    rw [Square.toList_text_of_ofChars? first, Square.toList_text_of_ofChars? second]
    rfl
  · simp only [Option.bind_eq_bind, Option.bind_eq_some_iff, Option.pure_def,
      Option.some.injEq] at read
    obtain ⟨origin, first, target, second, promotion, named, rfl⟩ := read
    refine .inr ⟨origin, target, some promotion, rfl, Square.onBoard_of_ofChars? first,
      Square.onBoard_of_ofChars? second, ?_⟩
    rw [Square.toList_text_of_ofChars? first, Square.toList_text_of_ofChars? second,
      Option.map_some, ofLetter?_eq_some_iff.1 named]
    rfl
  · cases read

theorem coordinates_iff {chars : List Char} :
    Coordinates chars ↔ ∃ move, ofChars? chars = some move := by
  constructor
  · intro written
    cases written with
    | null => exact ⟨null, rfl⟩
    | plain first second =>
      obtain ⟨origin, first⟩ := Square.named_iff.1 first
      obtain ⟨target, second⟩ := Square.named_iff.1 second
      unfold ofChars?
      split
      next => exact ⟨null, rfl⟩
      next same =>
        cases same
        exact ⟨plain origin target none, by simp [first, second]⟩
      next same => cases same
      next other _ => exact absurd rfl (other _ _ _ _)
    | promotion first second third =>
      obtain ⟨origin, first⟩ := Square.named_iff.1 first
      obtain ⟨target, second⟩ := Square.named_iff.1 second
      obtain ⟨promotion, third⟩ := mem_letters_iff.1 third
      exact ⟨plain origin target (some promotion), by simp [ofChars?, first, second, third]⟩
  · rintro ⟨move, read⟩
    unfold ofChars? at read
    split at read
    · exact .null
    · simp only [Option.bind_eq_bind, Option.bind_eq_some_iff] at read
      obtain ⟨origin, first, target, second, -⟩ := read
      exact .plain (Square.named_iff.2 ⟨origin, first⟩) (Square.named_iff.2 ⟨target, second⟩)
    · simp only [Option.bind_eq_bind, Option.bind_eq_some_iff] at read
      obtain ⟨origin, first, target, second, promotion, third, -⟩ := read
      exact .promotion (Square.named_iff.2 ⟨origin, first⟩) (Square.named_iff.2 ⟨target, second⟩)
        (mem_letters_iff.2 ⟨promotion, third⟩)
    · cases read

/-- Just the texts in coordinate notation are read as moves. -/
theorem isText_iff {text : String} : IsText text ↔ ∃ move, ofText? text = some move :=
  coordinates_iff

section
variable {text : String} {move : Move} (read : ofText? text = some move)
include read

theorem onBoard_of_ofText? : move.OnBoard := by
  rcases ofChars?_cases read with ⟨-, rfl⟩ | ⟨origin, target, promotion, rfl, first, second, -⟩
  · exact ⟨by decide, by decide⟩
  · exact ⟨first, second⟩

theorem isCastling_of_ofText? : move.isCastling = false := by
  rcases ofChars?_cases read with ⟨-, rfl⟩ | ⟨origin, target, promotion, rfl, -⟩ <;> rfl

/-- A move is written as it was read, in either notation. -/
theorem text_of_ofText? (chess960 : Bool) :
    move.text chess960 = if text = "a1a1" then "0000" else text := by
  rcases ofChars?_cases read with
    ⟨zeros, rfl⟩ | ⟨origin, target, promotion, rfl, -, -, written⟩
  · have same : text = "0000" := String.toList_injective zeros
    rw [same, if_neg (by decide)]
    rfl
  · by_cases other : text = "a1a1"
    · have passed : ofText? "a1a1" = some null := by decide
      rw [other, passed] at read
      rw [if_pos other, ← Option.some.inj read]
      rfl
    · have moved : plain origin target promotion ≠ null := by
        intro same
        cases same
        exact other (String.toList_injective written)
      rw [if_neg other, Move.text, if_neg moved]
      apply String.toList_injective
      rw [written]
      simp only [String.toList_append, String.toList_ofList]

end

theorem map_text_of_ofText? {texts : List String} {moves : List Move}
    (read : texts.map ofText? = moves.map some) (chess960 : Bool) :
    moves.map (·.text chess960) =
      texts.map fun text => if text = "a1a1" then "0000" else text := by
  induction texts generalizing moves with
  | nil =>
    cases moves with
    | nil => rfl
    | cons move moves => cases read
  | cons text texts ih =>
    cases moves with
    | nil => cases read
    | cons move moves =>
      obtain ⟨first, rest⟩ := List.cons.inj read
      rw [List.map_cons, List.map_cons, text_of_ofText? first, ih rest]

end Move

end UciProtocol
