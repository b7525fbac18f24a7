import UciProtocol.Proofs.Keywords

/-! Keywords by the bytes around them.

Offsets count bytes, and whether a keyword is set apart is told by single bytes. A byte can only be
read where there is one, and a text can only be cut between two characters. What is found by bytes
is what is found by characters: a character of more than one byte has no byte that could be taken
for a separator, and every place of a word lies between characters.
-/

set_option autoImplicit false

namespace UciProtocol.Text

def utf8 (text : List Char) : List UInt8 := text.flatMap String.utf8EncodeChar

theorem utf8_append (front back : List Char) : utf8 (front ++ back) = utf8 front ++ utf8 back :=
  List.flatMap_append

theorem utf8_cons (c : Char) (rest : List Char) :
    utf8 (c :: rest) = String.utf8EncodeChar c ++ utf8 rest := rfl

theorem length_utf8 (text : List Char) : (utf8 text).length = utf8Size text := by
  induction text with
  | nil => rfl
  | cons c rest ih => rw [utf8_cons, List.length_append, ih, String.length_utf8EncodeChar, utf8Size]

/-! ### Single characters -/

theorem encode_pos (c : Char) : 0 < (String.utf8EncodeChar c).length := by
  rw [String.length_utf8EncodeChar]
  exact c.utf8Size_pos

theorem encode_small {c : Char} (small : c.toNat ≤ 127) :
    String.utf8EncodeChar c = [UInt8.ofNat c.toNat] := by
  rw [String.utf8EncodeChar.eq_1]
  exact if_pos small

theorem encode_large {c : Char} (large : 127 < c.toNat) :
    ∀ byte ∈ String.utf8EncodeChar c, 128 ≤ byte.toNat := by
  have above : ¬ c.val.toNat ≤ 127 := Nat.not_le.2 large
  rw [String.utf8EncodeChar.eq_1, if_neg above]
  intro byte member
  split at member
  · simp only [List.mem_cons, List.not_mem_nil, or_false] at member
    rcases member with rfl | rfl <;> rw [UInt8.toNat_ofNat'] <;> omega
  · split at member
    · simp only [List.mem_cons, List.not_mem_nil, or_false] at member
      rcases member with rfl | rfl | rfl <;> rw [UInt8.toNat_ofNat'] <;> omega
    · simp only [List.mem_cons, List.not_mem_nil, or_false] at member
      rcases member with rfl | rfl | rfl | rfl <;> rw [UInt8.toNat_ofNat'] <;> omega

def isSeparatorByte (byte : UInt8) : Bool :=
  byte = 9 || byte = 10 || byte = 12 || byte = 13 || byte = 32

theorem isSeparatorByte_of_large {byte : UInt8} (large : 128 ≤ byte.toNat) :
    isSeparatorByte byte = false := by
  apply Bool.eq_false_iff.2
  intro separates
  simp only [isSeparatorByte, Bool.or_eq_true, decide_eq_true_eq] at separates
  rcases separates with (((rfl | rfl) | rfl) | rfl) | rfl <;> exact absurd large (by decide)

theorem isSeparator_of_large {c : Char} (large : 127 < c.toNat) : isSeparator c = false := by
  apply Bool.eq_false_iff.2
  intro separates
  simp only [isSeparator, Bool.or_eq_true, decide_eq_true_eq] at separates
  rcases separates with (((rfl | rfl) | rfl) | rfl) | rfl <;> exact absurd large (by decide)

-- Each byte of a character tells whether it is a separator.
theorem isSeparatorByte_encode {c : Char} {byte : UInt8}
    (member : byte ∈ String.utf8EncodeChar c) : isSeparatorByte byte = isSeparator c := by
  by_cases small : c.toNat ≤ 127
  · have all : ∀ n < 128, isSeparatorByte (UInt8.ofNat n) = isSeparator (Char.ofNat n) := by decide
    rw [encode_small small] at member
    rw [List.mem_singleton.1 member, all c.toNat (by omega), Char.ofNat_toNat]
  · have large := Nat.lt_of_not_le small
    rw [isSeparator_of_large large, isSeparatorByte_of_large (encode_large large byte member)]

/-! ### Cuts -/

/-- An offset at which no character is under way. -/
def IsBoundary (bytes : List UInt8) (offset : Nat) : Prop :=
  offset = bytes.length ∨ ∃ byte ∈ bytes[offset]?, byte.IsUTF8FirstByte

/-- Cut a text at a byte offset, which has to lie between two characters or at an edge. -/
def cutAt? : List Char → Nat → Option (List Char × List Char)
  | text, 0 => some ([], text)
  | [], _ + 1 => none
  | c :: rest, offset + 1 =>
    if c.utf8Size ≤ offset + 1 then
      (cutAt? rest (offset + 1 - c.utf8Size)).map fun (front, back) => (c :: front, back)
    else none

theorem cutAt?_zero (text : List Char) : cutAt? text 0 = some ([], text) := by
  cases text <;> rfl

theorem cutAt?_append (front back : List Char) :
    cutAt? (front ++ back) (utf8Size front) = some (front, back) := by
  induction front with
  | nil => exact cutAt?_zero back
  | cons c front ih =>
    have positive := c.utf8Size_pos
    have size : utf8Size (c :: front) = c.utf8Size + utf8Size front := rfl
    cases offset : utf8Size (c :: front) with
    | zero => omega
    | succ rest =>
      have left : rest + 1 - c.utf8Size = utf8Size front := by omega
      rw [List.cons_append, cutAt?, if_pos (by omega), left, ih]
      rfl

theorem of_cutAt? {text front back : List Char} {offset : Nat}
    (cut : cutAt? text offset = some (front, back)) :
    text = front ++ back ∧ utf8Size front = offset := by
  induction text generalizing front offset with
  | nil =>
    cases offset with
    | zero => cases cut; exact ⟨rfl, rfl⟩
    | succ offset => cases cut
  | cons c rest ih =>
    cases offset with
    | zero => cases cut; exact ⟨rfl, rfl⟩
    | succ offset =>
      rw [cutAt?] at cut
      split at cut
      next behind =>
        obtain ⟨⟨front', back'⟩, found, same⟩ := Option.map_eq_some_iff.1 cut
        cases same
        obtain ⟨rfl, size⟩ := ih found
        exact ⟨rfl, by rw [utf8Size, size]; omega⟩
      next => cases cut

/-- A cut takes nothing away, and the front is as large as the offset. -/
theorem cutAt?_eq_some_iff {text front back : List Char} {offset : Nat} :
    cutAt? text offset = some (front, back) ↔ text = front ++ back ∧ utf8Size front = offset := by
  constructor
  · exact of_cutAt?
  · rintro ⟨rfl, rfl⟩
    exact cutAt?_append front back

theorem isBoundary_zero (text : List Char) : IsBoundary (utf8 text) 0 := by
  cases text with
  | nil => exact .inl rfl
  | cons c rest =>
    have some := encode_pos c
    have first : (String.utf8EncodeChar c)[0].IsUTF8FirstByte :=
      UInt8.isUTF8FirstByte_getElem_utf8EncodeChar.2 rfl
    refine .inr ⟨_, ?_, first⟩
    rw [utf8_cons, List.getElem?_append_left some]
    exact List.getElem?_eq_getElem some

-- Behind a character the boundaries are those of what follows it.
theorem isBoundary_behind {c : Char} {bytes : List UInt8} {offset : Nat}
    (behind : c.utf8Size ≤ offset) :
    IsBoundary (String.utf8EncodeChar c ++ bytes) offset ↔
      IsBoundary bytes (offset - c.utf8Size) := by
  rw [← String.length_utf8EncodeChar] at behind ⊢
  rw [IsBoundary, IsBoundary, List.getElem?_append_right behind, List.length_append]
  have same : offset = (String.utf8EncodeChar c).length + bytes.length ↔
      offset - (String.utf8EncodeChar c).length = bytes.length := by omega
  rw [same]

theorem not_isBoundary_inside {c : Char} {bytes : List UInt8} {offset : Nat} (begun : 0 < offset)
    (inside : offset < c.utf8Size) : ¬ IsBoundary (String.utf8EncodeChar c ++ bytes) offset := by
  rw [← String.length_utf8EncodeChar] at inside
  rintro (last | ⟨byte, member, first⟩)
  · rw [List.length_append] at last
    omega
  · rw [List.getElem?_append_left inside, List.getElem?_eq_getElem inside] at member
    cases member
    have := UInt8.isUTF8FirstByte_getElem_utf8EncodeChar.1 first
    omega

/-- A text can be cut just at the boundaries of its bytes. -/
theorem cutAt?_isSome_iff {text : List Char} {offset : Nat} :
    (cutAt? text offset).isSome ↔ IsBoundary (utf8 text) offset := by
  induction text generalizing offset with
  | nil =>
    cases offset with
    | zero => exact iff_of_true rfl (isBoundary_zero [])
    | succ offset => simp [cutAt?, IsBoundary, utf8]
  | cons c rest ih =>
    cases offset with
    | zero => exact iff_of_true rfl (isBoundary_zero (c :: rest))
    | succ offset =>
      rw [cutAt?, utf8_cons]
      split
      next behind => rw [Option.isSome_map, ih, isBoundary_behind behind]
      next inside =>
        exact iff_of_false Bool.false_ne_true
          (not_isBoundary_inside (Nat.succ_pos offset) (Nat.lt_of_not_le inside))

example : cutAt? ['n', 'é'] 2 = none ∧ cutAt? ['n', 'é'] 1 = some (['n'], ['é']) := by decide

/-! ### Places -/

def separatorAt? (bytes : List UInt8) (index : Nat) : Option Bool :=
  bytes[index]?.map isSeparatorByte

def boundedBefore? (bytes : List UInt8) (place : Nat) : Option Bool :=
  if place = 0 then some true else separatorAt? bytes (place - 1)

def boundedBehind? (bytes : List UInt8) (stop : Nat) : Option Bool :=
  if stop = bytes.length then some true else separatorAt? bytes stop

def boundedAt? (bytes : List UInt8) (width place : Nat) : Option Bool := do
  let before ← boundedBefore? bytes place
  let behind ← boundedBehind? bytes (place + width)
  return before && behind

theorem separatorAt?_of_mem {bytes : List UInt8} {index : Nat} {c : Char}
    (own : ∃ byte ∈ String.utf8EncodeChar c, bytes[index]? = some byte) :
    separatorAt? bytes index = some (isSeparator c) := by
  obtain ⟨byte, member, is⟩ := own
  rw [separatorAt?, is, Option.map_some, isSeparatorByte_encode member]

theorem separatorAt?_last (front : List Char) (c : Char) (back : List Char) :
    separatorAt? (utf8 (front ++ c :: back)) (utf8Size front + c.utf8Size - 1) =
      some (isSeparator c) := by
  have positive := c.utf8Size_pos
  have index : utf8Size front + c.utf8Size - 1 - (utf8 front).length = c.utf8Size - 1 := by
    rw [length_utf8]
    omega
  have inside : c.utf8Size - 1 < (String.utf8EncodeChar c).length := by
    rw [String.length_utf8EncodeChar]
    omega
  apply separatorAt?_of_mem
  refine ⟨_, List.getElem_mem inside, ?_⟩
  rw [utf8_append, utf8_cons, List.getElem?_append_right (by rw [length_utf8]; omega), index,
    List.getElem?_append_left inside, List.getElem?_eq_getElem inside]

theorem separatorAt?_first (front : List Char) (c : Char) (back : List Char) :
    separatorAt? (utf8 (front ++ c :: back)) (utf8Size front) = some (isSeparator c) := by
  have positive := encode_pos c
  apply separatorAt?_of_mem
  refine ⟨_, List.getElem_mem positive, ?_⟩
  rw [utf8_append, utf8_cons, ← length_utf8, List.getElem?_append_right (Nat.le_refl _),
    Nat.sub_self, List.getElem?_append_left positive, List.getElem?_eq_getElem positive]

theorem utf8Size_reverse (text : List Char) : utf8Size text.reverse = utf8Size text := by
  induction text with
  | nil => rfl
  | cons c text ih =>
    rw [List.reverse_cons, utf8Size_append, ih, utf8Size, utf8Size, utf8Size]
    omega

theorem Occurrence.size_before (o : Occurrence) : utf8Size o.before = o.offset :=
  utf8Size_reverse o.passed

variable {word text : List Char}

-- The byte before a place is the last one of the character before it.
theorem boundedBefore?_eq {o : Occurrence} (place : o ∈ occurrences word text) :
    boundedBefore? (utf8 text) o.offset = some (o.passed.head?.all isSeparator) := by
  rw [boundedBefore?, Occurrence.offset]
  cases passed : o.passed with
  | nil => exact if_pos rfl
  | cons c rest =>
    have positive := c.utf8Size_pos
    have cut : text = rest.reverse ++ c :: (word ++ o.after) := by
      rw [mem_occurrences.1 place, Occurrence.before, passed]
      simp
    have last : utf8Size (c :: rest) - 1 = utf8Size rest.reverse + c.utf8Size - 1 := by
      rw [utf8Size_reverse, utf8Size, Nat.add_comm]
    rw [if_neg (by rw [utf8Size]; omega), last, cut, separatorAt?_last]
    rfl

-- The byte behind a place is the first one of the character behind it.
theorem boundedBehind?_eq {o : Occurrence} (place : o ∈ occurrences word text) :
    boundedBehind? (utf8 text) (o.offset + utf8Size word) =
      some (o.after.head?.all isSeparator) := by
  have stop : utf8Size (o.before ++ word) = o.offset + utf8Size word := by
    rw [utf8Size_append, o.size_before]
  rw [boundedBehind?, ← stop, mem_occurrences.1 place, length_utf8]
  cases after : o.after with
  | nil => exact if_pos (by rw [List.append_nil])
  | cons c rest =>
    have positive := c.utf8Size_pos
    rw [if_neg, separatorAt?_first]
    · rfl
    · rw [utf8Size_append _ (c :: rest), utf8Size]
      omega

/-- The bytes around a place can be read, and tell whether it is bounded. -/
theorem boundedAt?_eq {o : Occurrence} (place : o ∈ occurrences word text) :
    boundedAt? (utf8 text) (utf8Size word) o.offset = some (decide o.Bounded) := by
  have both : decide o.Bounded =
      (o.passed.head?.all isSeparator && o.after.head?.all isSeparator) := by
    rw [Bool.eq_iff_iff, decide_eq_true_iff, Bool.and_eq_true]
    rfl
  rw [boundedAt?, boundedBefore?_eq place, boundedBehind?_eq place, both]
  rfl

-- A text can be cut before a word that stands in it, and behind the word.
theorem cutAt?_before {o : Occurrence} (place : o ∈ occurrences word text) :
    cutAt? text o.offset = some (o.before, word ++ o.after) :=
  cutAt?_eq_some_iff.2 ⟨(mem_occurrences.1 place).trans (List.append_assoc ..), o.size_before⟩

theorem cutAt?_behind {o : Occurrence} (place : o ∈ occurrences word text) :
    cutAt? text (o.offset + utf8Size word) = some (o.before ++ word, o.after) := by
  refine cutAt?_eq_some_iff.2 ⟨mem_occurrences.1 place, ?_⟩
  rw [utf8Size_append, o.size_before]

/-! ### Searches -/

def firstOffset? (word text : List Char) : Option (Option Nat) :=
  if word = [] ∨ utf8Size text < utf8Size word then some none
  else ((metFromLeft word text).map (·.offset)).findM? (boundedAt? (utf8 text) (utf8Size word))

def lastOffset? (word text : List Char) (least : Nat) : Option (Option Nat) :=
  if word = [] ∨ utf8Size text < utf8Size word then some none
  else
    (((metFromRight word text).map (·.offset)).takeWhile (least ≤ ·)).findM?
      (boundedAt? (utf8 text) (utf8Size word))

theorem findM?_offsets {places : List Occurrence}
    (inside : ∀ o ∈ places, o ∈ occurrences word text) :
    (places.map (·.offset)).findM? (boundedAt? (utf8 text) (utf8Size word)) =
      some ((places.find? (·.Bounded)).map (·.offset)) := by
  induction places with
  | nil => rfl
  | cons o places ih =>
    obtain ⟨place, rest⟩ := List.forall_mem_cons.1 inside
    rw [List.map_cons, List.findM?, boundedAt?_eq place, ih rest, List.find?_cons]
    cases decide o.Bounded <;> rfl

-- A word does not stand in a text that has fewer bytes.
theorem occurrences_of_larger (larger : utf8Size text < utf8Size word) :
    occurrences word text = [] := by
  rw [List.eq_nil_iff_forall_not_mem]
  intro o place
  have size := congrArg utf8Size (mem_occurrences.1 place)
  rw [utf8Size_append, utf8Size_append] at size
  omega

theorem firstOffset?_eq (word text : List Char) :
    firstOffset? word text = some ((firstBounded? word text).map (·.offset)) := by
  unfold firstOffset? firstBounded?
  by_cases empty : word = []
  · rw [if_pos (.inl empty), if_pos empty]
    rfl
  · by_cases larger : utf8Size text < utf8Size word
    · rw [if_pos (.inr larger), if_neg empty, metFromLeft, occurrences_of_larger larger]
      rfl
    · rw [if_neg (by simp [empty, larger]), if_neg empty, metFromLeft]
      exact findM?_offsets fun o member => (metFrom_sublist 0).subset member

theorem lastOffset?_eq (word text : List Char) (least : Nat) :
    lastOffset? word text least = some ((lastBounded? word text least).map (·.offset)) := by
  unfold lastOffset? lastBounded?
  by_cases empty : word = []
  · rw [if_pos (.inl empty), if_pos empty]
    rfl
  · by_cases larger : utf8Size text < utf8Size word
    · rw [if_pos (.inr larger), if_neg empty, metFromRight, occurrences_of_larger larger]
      rfl
    · rw [if_neg (by simp [empty, larger]), if_neg empty, List.takeWhile_map]
      refine findM?_offsets fun o member => ?_
      have met := (List.takeWhile_sublist _).subset member
      exact List.mem_reverse.1 ((metFrom_sublist 0).subset met)

end UciProtocol.Text
