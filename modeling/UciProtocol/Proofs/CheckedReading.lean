import UciProtocol.Proofs.Assignments
import UciProtocol.Proofs.ByteOffsets
import UciProtocol.Proofs.LineBreaks
import UciProtocol.Proofs.MoveTexts

/-! Reading that never leaves its bounds.

A line, an assignment and a move are read once more, now by byte offsets as they are found: every
byte that is looked at and every cut that is made may turn out to be out of bounds, and the reading
comes to nothing then. It never does, and what it comes to is what is read by characters.
-/

set_option autoImplicit false

namespace UciProtocol

open Text

/-! ### Assignments -/

namespace Assignment

def checkedReadValue (name text : List Char) : Option (Except RequestError Assignment) := do
  match ← lastOffset? "context".toList text 0 with
  | some place =>
    let (_, behind) ← cutAt? text (place + utf8Size "context".toList)
    let context := trim behind
    if context = [] then some (.error (.emptyContext (String.ofList name)))
    else
      let (before, _) ← cutAt? text place
      let value := trim before
      if value = [] then some (.error .emptyOptionValue)
      else some (.ok ⟨String.ofList name, String.ofList value, String.ofList context⟩)
  | none =>
    if text = [] then some (.error .emptyOptionValue)
    else some (.ok ⟨String.ofList name, String.ofList text, ""⟩)

def checkedRead (text : List Char) : Option (Except RequestError Assignment) :=
  match afterName? (trim text) with
  | none => some (.error .expectedName)
  | some rest => do
    let rest := trim rest
    match ← firstOffset? "value".toList rest with
    | none => some (.error .missingValue)
    | some place =>
      let (before, _) ← cutAt? rest place
      let name := trim before
      if name = [] then some (.error .emptyOptionName)
      else
        let (_, behind) ← cutAt? rest (place + utf8Size "value".toList)
        checkedReadValue name (trim behind)

theorem checkedReadValue_eq (name text : List Char) :
    checkedReadValue name text = some (readValue name text) := by
  unfold checkedReadValue readValue
  rw [lastOffset?_eq]
  cases found : lastBounded? "context".toList text 0 with
  | none => by_cases empty : text = [] <;> simp [empty]
  | some o =>
    have ⟨place, _⟩ := lastBounded?_sound found
    simp only [Option.map_some, Option.bind_eq_bind, Option.bind_some, cutAt?_behind place,
      cutAt?_before place]
    split
    · rfl
    · split <;> rfl

theorem checkedRead_eq (text : List Char) : checkedRead text = some (read text) := by
  unfold checkedRead read
  cases afterName? (trim text) with
  | none => rfl
  | some rest =>
    dsimp only
    rw [firstOffset?_eq]
    cases found : firstBounded? "value".toList (trim rest) with
    | none => rfl
    | some o =>
      have ⟨place, _⟩ := firstBounded?_sound found
      simp only [Option.map_some, Option.bind_eq_bind, Option.bind_some, cutAt?_before place,
        cutAt?_behind place, checkedReadValue_eq]
      split <;> rfl

end Assignment

/-! ### Lines -/

namespace Invocation

def checkedOfLine (line : String) : Option (Except RequestError (Option Invocation)) :=
  let trimmed := trim line.toList
  match words trimmed with
  | [] => some (.ok none)
  | name :: _ => do
    let (_, behind) ← cutAt? trimmed (utf8Size name)
    let rest := trimStart behind
    match Command.ofName? (String.ofList name) with
    | none => some (.error (.unknownCommand (String.ofList name) line))
    | some .setOption =>
      let read ← Assignment.checkedRead rest
      some (read.map fun assignment => some ⟨.setOption, assignment.arguments⟩)
    | some command => some ((ofTokens command (tokens (String.ofList rest))).map some)

-- The first word of a trimmed line stands at its beginning.
theorem trim_eq_of_words {text name : List Char} {others : List (List Char)}
    (named : words (trim text) = name :: others) :
    ∃ rest tail, trim text = name ++ rest ∧ words rest = others ∧
      afterFirstWord text = rest ++ tail ∧ ∀ c ∈ tail, isBlank c = true := by
  obtain ⟨lead, tail, cut, before, behind⟩ := exists_trim text
  obtain ⟨first, rest, trimmed, blanks, apart, -, later⟩ := words_eq_cons named
  have nonempty : trim text ≠ [] := by
    intro empty
    rw [empty] at named
    cases named
  obtain rfl : first = [] := by
    have phrase := isPhrase_trim nonempty
    rw [trimmed, List.append_assoc] at phrase
    exact phrase.lead_eq_nil blanks
  rw [List.nil_append] at trimmed
  obtain ⟨piece, some⟩ := List.mem_filter.1 (named ▸ List.mem_cons_self : name ∈ words (trim text))
  refine ⟨rest, tail, trimmed, later, ?_, behind⟩
  rw [cut, trimmed, ← List.append_assoc, List.append_assoc (lead ++ name)]
  apply afterFirstWord_append before (solid_of_mem_splitOnP piece)
  · intro c member
    cases rest with
    | nil => exact behind c (List.mem_of_mem_head? member)
    | cons d rest => exact apart c member
  · exact fun empty => absurd empty (by simpa using some)

theorem checkedOfLine_eq (line : String) : checkedOfLine line = some (ofLine line) := by
  unfold checkedOfLine ofLine
  dsimp only
  rw [tokens, ← words_trim line.toList]
  cases named : words (trim line.toList) with
  | nil => rfl
  | cons name others =>
    obtain ⟨rest, tail, trimmed, later, after, blanks⟩ := trim_eq_of_words named
    have whole : Assignment.read (rest ++ tail) = Assignment.read (trimStart rest) := by
      have around := trim_around rest (List.forall_mem_nil _) blanks
      rw [Assignment.read, Assignment.read, trim_trimStart, ← around, List.nil_append]
    have words : tokens (String.ofList (trimStart rest)) = others.map String.ofList := by
      rw [tokens, String.toList_ofList, words_trimStart, later]
    rw [List.map_cons, after, whole, trimmed, ← words]
    simp only [cutAt?_append, Option.bind_eq_bind, Option.bind_some, Assignment.checkedRead_eq]
    cases Command.ofName? (String.ofList name) with
    | none => rfl
    | some command => cases command <;> rfl

end Invocation

/-! ### Moves -/

namespace Square

/-- How far a byte is behind the first of eight. -/
def ofByte? (first byte : UInt8) : Option UInt8 :=
  if first ≤ byte ∧ byte - first < 8 then some (byte - first) else none

def ofBytes? (file rank : UInt8) : Option Square := do
  let file ← ofByte? 97 file
  let rank ← ofByte? 49 rank
  return ⟨file, rank⟩

theorem ofByte?_eq (first byte : UInt8) :
    ofByte? first byte =
      if first.toNat ≤ byte.toNat ∧ byte.toNat < first.toNat + 8 then
        some (.ofNat (byte.toNat - first.toNat))
      else none := by
  have eight : (8 : UInt8).toNat = 8 := rfl
  by_cases le : first ≤ byte
  · have above : first.toNat ≤ byte.toNat := UInt8.le_iff_toNat_le.1 le
    have distance := UInt8.toNat_sub_of_le byte first le
    have same : byte - first = .ofNat (byte.toNat - first.toNat) := by
      rw [← distance, UInt8.ofNat_toNat]
    by_cases near : byte.toNat < first.toNat + 8
    · have close : byte - first < 8 := by
        rw [UInt8.lt_iff_toNat_lt, distance, eight]
        omega
      rw [ofByte?, if_pos ⟨le, close⟩, if_pos ⟨above, near⟩, same]
    · have far : ¬ byte - first < 8 := by
        rw [UInt8.lt_iff_toNat_lt, distance, eight]
        omega
      rw [ofByte?, if_neg fun both => far both.2, if_neg fun both => near both.2]
  · rw [ofByte?, if_neg fun both => le both.1, if_neg fun both => le ?_]
    exact UInt8.le_iff_toNat_le.2 both.1

theorem small_of_ofByte? {first byte distance : UInt8} (last : first.toNat + 8 ≤ 128)
    (read : ofByte? first byte = some distance) : byte.toNat < 128 := by
  rw [ofByte?_eq, Option.ite_none_right_eq_some] at read
  omega

theorem small_of_ofBytes? {file rank : UInt8} {square : Square}
    (read : ofBytes? file rank = some square) : file.toNat < 128 ∧ rank.toNat < 128 := by
  simp only [ofBytes?, Option.bind_eq_bind, Option.bind_eq_some_iff] at read
  obtain ⟨_, first, _, second, -⟩ := read
  exact ⟨small_of_ofByte? (by decide) first, small_of_ofByte? (by decide) second⟩

-- Of ASCII characters the bytes are the codes.
theorem ofBytes?_ofChars {file rank : Char} (first : file.toNat ≤ 127) (second : rank.toNat ≤ 127) :
    ofBytes? (.ofNat file.toNat) (.ofNat rank.toNat) = ofChars? file rank := by
  have own {code : Nat} (small : code ≤ 127) : (UInt8.ofNat code).toNat = code := by
    rw [UInt8.toNat_ofNat']
    omega
  have order (c d : Char) : c.toNat ≤ d.toNat ↔ c ≤ d := UInt32.le_iff_toNat_le.symm
  have letter : 97 ≤ file.toNat ∧ file.toNat < 97 + 8 ↔ 'a' ≤ file ∧ file ≤ 'h' :=
    and_congr (order 'a' file) (Nat.lt_succ_iff.trans (order file 'h'))
  have digit : 49 ≤ rank.toNat ∧ rank.toNat < 49 + 8 ↔ '1' ≤ rank ∧ rank ≤ '8' :=
    and_congr (order '1' rank) (Nat.lt_succ_iff.trans (order rank '8'))
  have a : (97 : UInt8).toNat = 97 := rfl
  have one : (49 : UInt8).toNat = 49 := rfl
  rw [ofBytes?, ofByte?_eq, ofByte?_eq, own first, own second, a, one]
  simp only [letter, digit]
  by_cases named : 'a' ≤ file ∧ file ≤ 'h'
  · by_cases counted : '1' ≤ rank ∧ rank ≤ '8'
    · rw [if_pos named, if_pos counted]
      exact (if_pos ⟨named.1, named.2, counted⟩).symm
    · rw [if_pos named, if_neg counted]
      exact (if_neg fun all => counted all.2.2).symm
  · rw [if_neg named]
    exact (if_neg fun all => named ⟨all.1, all.2.1⟩).symm

end Square

namespace Move

def ofBytes? (bytes : List UInt8) : Option (Option Move) :=
  if bytes.length < 4 ∨ 5 < bytes.length then some none
  else do
    let file ← bytes[0]?
    let rank ← bytes[1]?
    match Square.ofBytes? file rank with
    | none => some none
    | some origin =>
      let file ← bytes[2]?
      let rank ← bytes[3]?
      match Square.ofBytes? file rank with
      | none => some none
      | some target =>
        match bytes[4]? with
        | none => some (some (plain origin target none))
        | some letter =>
          some ((Promotion.ofLetter? (Char.ofNat letter.toNat)).map fun promotion =>
            plain origin target (some promotion))

def checkedOfText (text : String) : Option (Option Move) :=
  if text = "0000" then some (some null) else ofBytes? (utf8 text.toList)

theorem small_of_ofLetter? {byte : UInt8} {promotion : Promotion}
    (named : Promotion.ofLetter? (Char.ofNat byte.toNat) = some promotion) : byte.toNat < 128 := by
  have letter := (ofLetter?_eq_some_iff.1 named).symm
  rw [eq_toNat_of_ofNat letter (by cases promotion <;> decide)]
  cases promotion <;> decide

theorem ofBytes?_four (file rank file' rank' : UInt8) :
    ofBytes? [file, rank, file', rank'] =
      some (do
        let origin ← Square.ofBytes? file rank
        let target ← Square.ofBytes? file' rank'
        return plain origin target none) := by
  unfold ofBytes?
  dsimp only [List.length_cons, List.length_nil]
  cases first : Square.ofBytes? file rank with
  | none => simp [first]
  | some origin =>
    cases second : Square.ofBytes? file' rank' with
    | none => simp [first, second]
    | some target => simp [first, second]

theorem ofBytes?_five (file rank file' rank' letter : UInt8) :
    ofBytes? [file, rank, file', rank', letter] =
      some (do
        let origin ← Square.ofBytes? file rank
        let target ← Square.ofBytes? file' rank'
        let promotion ← Promotion.ofLetter? (Char.ofNat letter.toNat)
        return plain origin target (some promotion)) := by
  unfold ofBytes?
  dsimp only [List.length_cons, List.length_nil]
  cases first : Square.ofBytes? file rank with
  | none => simp [first]
  | some origin =>
    cases second : Square.ofBytes? file' rank' with
    | none => simp [first, second]
    | some target => cases named : Promotion.ofLetter? (Char.ofNat letter.toNat) <;>
        simp [first, second, named]

-- A move is written in four or five places.
theorem places_cases {α : Type} (items : List α) :
    (items.length < 4 ∨ 5 < items.length) ∨
      (∃ a b c d, items = [a, b, c, d]) ∨ ∃ a b c d e, items = [a, b, c, d, e] := by
  match items with
  | [] | [_] | [_, _] | [_, _, _] => exact .inl (.inl (by simp))
  | [a, b, c, d] => exact .inr (.inl ⟨a, b, c, d, rfl⟩)
  | [a, b, c, d, e] => exact .inr (.inr ⟨a, b, c, d, e, rfl⟩)
  | _ :: _ :: _ :: _ :: _ :: _ :: _ => exact .inl (.inr (by simp))

-- Every byte that is looked at is there.
theorem exists_ofBytes? (bytes : List UInt8) : ∃ read, ofBytes? bytes = some read := by
  rcases places_cases bytes with wrong | ⟨a, b, c, d, rfl⟩ | ⟨a, b, c, d, e, rfl⟩
  · exact ⟨none, if_pos wrong⟩
  · exact ⟨_, ofBytes?_four a b c d⟩
  · exact ⟨_, ofBytes?_five a b c d e⟩

theorem small_of_ofBytes? {bytes : List UInt8} {move : Move}
    (read : ofBytes? bytes = some (some move)) : ∀ byte ∈ bytes, byte.toNat < 128 := by
  rcases places_cases bytes with wrong | ⟨a, b, c, d, rfl⟩ | ⟨a, b, c, d, e, rfl⟩
  · cases (if_pos wrong).symm.trans read
  · simp only [ofBytes?_four, Option.some.injEq, Option.bind_eq_bind,
      Option.bind_eq_some_iff] at read
    obtain ⟨_, first, _, second, -⟩ := read
    have first := Square.small_of_ofBytes? first
    have second := Square.small_of_ofBytes? second
    simp [first, second]
  · simp only [ofBytes?_five, Option.some.injEq, Option.bind_eq_bind,
      Option.bind_eq_some_iff] at read
    obtain ⟨_, first, _, second, _, third, -⟩ := read
    have first := Square.small_of_ofBytes? first
    have second := Square.small_of_ofBytes? second
    have third := small_of_ofLetter? third
    simp [first, second, third]

theorem small_of_coordinates {chars : List Char} (written : Coordinates chars) :
    ∀ c ∈ chars, c.toNat ≤ 127 := by
  have file {a b : Char} (named : Square.Named a b) : a.toNat ≤ 127 :=
    Nat.le_trans (Square.file_of_named named).2 (by decide)
  have rank {a b : Char} (named : Square.Named a b) : b.toNat ≤ 127 :=
    Nat.le_trans (Square.rank_of_named named).2 (by decide)
  cases written with
  | null => simp
  | plain first second => simp [file first, rank first, file second, rank second]
  | promotion first second third =>
    have letter : ∀ c ∈ ['n', 'b', 'r', 'q'], c.toNat ≤ 127 := by simp
    simp [file first, rank first, file second, rank second, letter _ third]

theorem utf8_of_small {chars : List Char} (small : ∀ c ∈ chars, c.toNat ≤ 127) :
    utf8 chars = chars.map (.ofNat ·.toNat) := by
  induction chars with
  | nil => rfl
  | cons c chars ih =>
    obtain ⟨first, rest⟩ := List.forall_mem_cons.1 small
    rw [utf8_cons, encode_small first, ih rest]
    rfl

theorem ofChars?_four {file rank file' rank' : Char}
    (other : [file, rank, file', rank'] ≠ ['0', '0', '0', '0']) :
    ofChars? [file, rank, file', rank'] = do
      let origin ← Square.ofChars? file rank
      let target ← Square.ofChars? file' rank'
      return plain origin target none := by
  unfold ofChars?
  split
  next same => exact absurd same other
  next same => cases same; rfl
  next same => cases same
  next unmatched _ => exact absurd rfl (unmatched _ _ _ _)

theorem ofChars?_five (file rank file' rank' letter : Char) :
    ofChars? [file, rank, file', rank', letter] = do
      let origin ← Square.ofChars? file rank
      let target ← Square.ofChars? file' rank'
      let promotion ← Promotion.ofLetter? letter
      return plain origin target (some promotion) := by
  rw [ofChars?]

theorem ofBytes?_ofChars {chars : List Char} (small : ∀ c ∈ chars, c.toNat ≤ 127)
    (other : chars ≠ ['0', '0', '0', '0']) :
    ofBytes? (chars.map (.ofNat ·.toNat)) = some (ofChars? chars) := by
  rcases places_cases chars with wrong | ⟨a, b, c, d, rfl⟩ | ⟨a, b, c, d, e, rfl⟩
  · have unread : ofChars? chars = none := by
      unfold ofChars?
      split
      next => exact absurd wrong (by simp)
      next => exact absurd wrong (by simp)
      next => exact absurd wrong (by simp)
      next => rfl
    rw [unread]
    exact if_pos (by simpa using wrong)
  · simp only [List.forall_mem_cons] at small
    obtain ⟨first, second, third, fourth, -⟩ := small
    rw [ofChars?_four other]
    simp only [List.map_cons, List.map_nil, ofBytes?_four, Square.ofBytes?_ofChars, *]
  · simp only [List.forall_mem_cons] at small
    obtain ⟨first, second, third, fourth, fifth, -⟩ := small
    have letter : Char.ofNat (UInt8.ofNat e.toNat).toNat = e := by
      rw [UInt8.toNat_ofNat', Nat.mod_eq_of_lt (by omega), Char.ofNat_toNat]
    rw [ofChars?_five]
    simp only [List.map_cons, List.map_nil, ofBytes?_five, Square.ofBytes?_ofChars, *]

theorem checkedOfText_eq (text : String) : checkedOfText text = some (ofText? text) := by
  unfold checkedOfText
  split
  next zeros =>
    rw [zeros]
    rfl
  next other =>
    have other : text.toList ≠ ['0', '0', '0', '0'] := fun same =>
      other (String.toList_injective same)
    by_cases small : ∀ c ∈ text.toList, c.toNat ≤ 127
    · rw [utf8_of_small small, ofBytes?_ofChars small other]
      rfl
    · -- A character of more than one byte makes a byte that names nothing.
      have unread : ofText? text = none := Option.eq_none_iff_forall_ne_some.2 fun move read =>
        small (small_of_coordinates (coordinates_iff.2 ⟨move, read⟩))
      simp only [not_forall, Nat.not_le] at small
      obtain ⟨c, member, large⟩ := small
      obtain ⟨read, found⟩ := exists_ofBytes? (utf8 text.toList)
      cases read with
      | none => rw [found, unread]
      | some move =>
        have byte := List.getElem_mem (encode_pos c)
        have above := encode_large large _ byte
        have below := small_of_ofBytes? found _ (List.mem_flatMap.2 ⟨c, member, byte⟩)
        omega

end Move

end UciProtocol
