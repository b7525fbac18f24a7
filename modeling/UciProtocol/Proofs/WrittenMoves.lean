import UciProtocol.Proofs.CheckedReading

/-! Moves that are written and read back.

A text that is read as a move is written again as it was, but for the second text of the null move.
A move on the board is read back from either way of writing it. No text tells castling, so what is
read of it is a plain move: the king's to the rook's square, or his own step.
-/

set_option autoImplicit false

namespace UciProtocol

open Text

theorem Square.exists_named {square : Square} (inside : square.OnBoard) :
    ∃ file rank, square.text.toList = [file, rank] ∧ ofChars? file rank = some square := by
  have file : square.file.toNat < 8 := UInt8.lt_iff_toNat_lt.1 inside.1
  have rank : square.rank.toNat < 8 := UInt8.lt_iff_toNat_lt.1 inside.2
  have a : 'a'.toNat = 97 := rfl
  have one : '1'.toNat = 49 := rfl
  have valid : ('a'.toNat + square.file.toNat).isValidChar := .inl (by omega)
  have letter : (Char.ofNat ('a'.toNat + square.file.toNat)).toNat =
      'a'.toNat + square.file.toNat := by
    rw [Char.ofNat, dif_pos valid]
    rfl
  have small : square.rank.toNat + 1 < 10 := by omega
  have digit := Nat.toNat_digitChar_of_lt_ten small
  refine ⟨_, _, toList_text inside, ?_⟩
  rw [ofChars?_eq_some_iff, letter, digit]
  constructor
  · have order (c d : Char) : c ≤ d ↔ c.toNat ≤ d.toNat := UInt32.le_iff_toNat_le
    have h : 'h'.toNat = 104 := rfl
    have eight : '8'.toNat = 56 := rfl
    unfold Named
    rw [order, order, order, order, letter, digit]
    omega
  · have fileBack : 'a'.toNat + square.file.toNat - 'a'.toNat = square.file.toNat := by omega
    have rankBack : 48 + (square.rank.toNat + 1) - '1'.toNat = square.rank.toNat := by omega
    rw [fileBack, rankBack, UInt8.ofNat_toNat, UInt8.ofNat_toNat]

namespace Move

theorem read_eq_ok_iff {text : String} {move : Move} :
    read text = .ok move ↔ ofText? text = some move := by
  unfold read
  cases ofText? text <;> simp

theorem read_eq_error_iff {text : String} {unread : Unread} :
    read text = .error unread ↔ ¬ IsText text ∧ unread = ⟨text⟩ := by
  rw [isText_iff]
  unfold read
  cases ofText? text <;> simp [eq_comm]

theorem exists_read_iff {text : String} : (∃ move, read text = .ok move) ↔ IsText text := by
  simp only [read_eq_ok_iff, isText_iff]

/-- What bytes are read as is what characters are read as. -/
theorem checkedOfText_read (text : String) : checkedOfText text = some (read text).toOption := by
  rw [checkedOfText_eq]
  unfold read
  cases ofText? text <;> rfl

theorem ofText?_squares {origin target : Square} (first : origin.OnBoard)
    (second : target.OnBoard) (promotion : Option Promotion) :
    ofText? (origin.text ++ target.text ++ String.ofList (promotion.map Promotion.letter).toList) =
      some (plain origin target promotion) := by
  obtain ⟨file, rank, written, named⟩ := Square.exists_named first
  obtain ⟨file', rank', written', named'⟩ := Square.exists_named second
  rw [ofText?, String.toList_append, String.toList_append, String.toList_ofList, written, written']
  cases promotion with
  | none =>
    -- The first character is a letter, so the text is not that of the null move.
    have letter : file ≠ '0' := by
      rintro rfl
      exact absurd (Square.ofChars?_eq_some_iff.1 named).1.1 (by decide)
    have other : [file, rank, file', rank'] ≠ ['0', '0', '0', '0'] :=
      fun same => letter (List.cons.inj same).1
    have four := ofChars?_four other
    rw [named, named'] at four
    exact four
  | some promotion =>
    have five := ofChars?_five file rank file' rank' promotion.letter
    rw [named, named', ofLetter?_eq_some_iff.2 rfl] at five
    exact five

theorem read_plain {origin target : Square} (first : origin.OnBoard) (second : target.OnBoard)
    (promotion : Option Promotion) (chess960 : Bool) :
    read ((plain origin target promotion).text chess960) =
      .ok (plain origin target promotion) := by
  rw [read_eq_ok_iff, text]
  split
  next same =>
    rw [same]
    rfl
  next => exact ofText?_squares first second promotion

/-- Castling is read as a plain move of the king to the square that is written. -/
theorem read_castling {king rook : Square} (inside : (castling king rook).OnBoard)
    (chess960 : Bool) :
    read ((castling king rook).text chess960) =
      .ok (plain king (if chess960 then rook else kingTarget king rook) none) := by
  have none := ofText?_squares inside.1 (onBoard_target inside chess960) none
  rw [read_eq_ok_iff, text, if_neg (by simp [null])]
  rwa [Option.map_none, Option.toList_none, String.ofList_nil, String.append_empty] at none

/-- Just the texts in coordinate notation are read as moves, by bytes as by characters, and any
other is given back. In either way of writing, a move is written as it was read; `a1a1` alone
is the null move too. A plain move is read back as it is, and castling as a plain move of the king:
to the rook's square, or as he goes on his rank, to the file of g or c. -/
theorem written_moves_read_back :
    (∀ text, (∃ move, read text = .ok move) ↔ IsText text) ∧
    (∀ text unread, read text = .error unread ↔ ¬ IsText text ∧ unread = ⟨text⟩) ∧
    (∀ text, checkedOfText text = some (read text).toOption) ∧
    (∀ text move, read text = .ok move → ∀ chess960,
      move.text chess960 = if text = "a1a1" then "0000" else text) ∧
    read "a1a1" = .ok null ∧
    (∀ origin target promotion, origin.OnBoard → target.OnBoard → ∀ chess960,
      read ((plain origin target promotion).text chess960) =
        .ok (plain origin target promotion)) ∧
    ∀ king rook, king.OnBoard → rook.OnBoard →
      read ((castling king rook).text true) = .ok (plain king rook none) ∧
      read ((castling king rook).text false) =
        .ok (plain king ⟨if rook.file > king.file then 6 else 2, king.rank⟩ none) := by
  refine ⟨fun text => exists_read_iff, fun text unread => read_eq_error_iff, checkedOfText_read,
    fun text move read => text_of_ofText? (read_eq_ok_iff.1 read), read_eq_ok_iff.2 (by decide),
    ?_, ?_⟩
  · intro origin target promotion first second chess960
    exact read_plain first second promotion chess960
  · intro king rook first second
    exact ⟨read_castling ⟨first, second⟩ true, read_castling ⟨first, second⟩ false⟩

theorem castling_reads_back_as_kings_move :
    let king : Square := ⟨4, 0⟩
    let rook : Square := ⟨7, 0⟩
    let promoted : Move := plain ⟨4, 6⟩ ⟨3, 7⟩ (some .knight)
    king.OnBoard ∧ rook.OnBoard ∧ read "e7d8n" = .ok promoted ∧
    promoted.text false = "e7d8n" ∧ read (promoted.text true) = .ok promoted ∧
    read ((castling king rook).text true) = .ok (plain king rook none) ∧
    read ((castling king rook).text false) = .ok (plain king ⟨6, 0⟩ none) := by
  intro king rook promoted
  obtain ⟨-, -, -, written, -, plains, castles⟩ := written_moves_read_back
  have onBoard : king.OnBoard ∧ rook.OnBoard := by decide
  have passed : read "e7d8n" = .ok promoted := read_eq_ok_iff.2 (by decide)
  have again := plains ⟨4, 6⟩ ⟨3, 7⟩ (some .knight) (by decide) (by decide) true
  obtain ⟨long, short⟩ := castles king rook onBoard.1 onBoard.2
  exact ⟨onBoard.1, onBoard.2, passed, written "e7d8n" promoted passed false, again, long, short⟩

end Move

end UciProtocol
