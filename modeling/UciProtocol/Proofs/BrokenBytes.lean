import UciProtocol.Proofs.DecodedLines
import UciProtocol.Proofs.KeywordOffsets
import UciProtocol.Proofs.Runs

/-! Bytes that are no text, and the lines that they stand on.

Decoding reads the characters that stand in the bytes. Where none stands, it passes over as many
bytes as some character could begin with, or over a single byte, and reads one replacement
character for them. As no character but the line feed has its byte, each line of the bytes becomes
one line of the text, and what is broken on a line is not seen on another.
-/

set_option autoImplicit false

namespace UciProtocol.Text

namespace Utf8

def Begins (part : List UInt8) : Prop := ∃ c, part <+: String.utf8EncodeChar c

/-- A part of a character, in front of other bytes, that they do not make whole. It reaches as far
as any character could; a byte with which no character begins is a part by itself. -/
structure Broken (part rest : List UInt8) : Prop where
  nonempty : part ≠ []
  begins : Begins part ∨ part.length = 1
  longest : ∀ longer, longer <+: part ++ rest → Begins longer → longer <+: part
  unfinished : ∀ c, ¬ String.utf8EncodeChar c <+: part ++ rest

inductive Reads (bytes rest : List UInt8) : Char → Prop where
  | whole (c : Char) : bytes = String.utf8EncodeChar c ++ rest → Reads bytes rest c
  | broken (part : List UInt8) : bytes = part ++ rest → Broken part rest →
      Reads bytes rest replacement

/-- The text that some bytes show, with a replacement character for each broken part. -/
inductive Shows : List UInt8 → List Char → Prop where
  | nil : Shows [] []
  | cons {bytes rest : List UInt8} {c : Char} {text : List Char} : Reads bytes rest c →
      Shows rest text → Shows bytes (c :: text)

/-! ### Bytes of a character -/

variable {c : Char} {byte : UInt8} {part bytes : List UInt8}

theorem encode_cases (c : Char) :
    (c.toNat < 0x80 ∧ String.utf8EncodeChar c = [.ofNat c.toNat]) ∨
    (0x80 ≤ c.toNat ∧ c.toNat < 0x800 ∧ String.utf8EncodeChar c =
      [.ofNat (0xc0 + c.toNat / 64), .ofNat (0x80 + c.toNat % 64)]) ∨
    (0x800 ≤ c.toNat ∧ c.toNat < 0x10000 ∧ String.utf8EncodeChar c =
      [.ofNat (0xe0 + c.toNat / 64 ^ 2), .ofNat (0x80 + c.toNat / 64 % 64),
        .ofNat (0x80 + c.toNat % 64)]) ∨
    0x10000 ≤ c.toNat ∧ c.toNat < 0x110000 ∧ String.utf8EncodeChar c =
      [.ofNat (0xf0 + c.toNat / 64 ^ 3), .ofNat (0x80 + c.toNat / 64 ^ 2 % 64),
        .ofNat (0x80 + c.toNat / 64 % 64), .ofNat (0x80 + c.toNat % 64)] := by
  have valid : c.toNat < 0xd800 ∨ 0xdfff < c.toNat ∧ c.toNat < 0x110000 := c.valid
  have code : c.val.toNat = c.toNat := rfl
  have bytes := String.utf8EncodeChar.eq_1 c
  rw [code] at bytes
  rcases Nat.lt_or_ge c.toNat 0x80 with one | one
  · rw [if_pos (Nat.le_of_lt_succ one)] at bytes
    exact .inl ⟨one, bytes⟩
  rw [if_neg (Nat.not_le.2 one)] at bytes
  rcases Nat.lt_or_ge c.toNat 0x800 with two | two
  · have first : c.toNat / 64 % 32 + 192 = 0xc0 + c.toNat / 64 := by omega
    rw [if_pos (Nat.le_of_lt_succ two), first, Nat.add_comm _ 128] at bytes
    exact .inr (.inl ⟨one, two, bytes⟩)
  rw [if_neg (Nat.not_le.2 two)] at bytes
  rcases Nat.lt_or_ge c.toNat 0x10000 with three | three
  · have first : c.toNat / 4096 % 16 + 224 = 0xe0 + c.toNat / 64 ^ 2 := by omega
    rw [if_pos (Nat.le_of_lt_succ three), first, Nat.add_comm _ 128, Nat.add_comm _ 128] at bytes
    exact .inr (.inr (.inl ⟨two, three, bytes⟩))
  · have first : c.toNat / 262144 % 8 + 240 = 0xf0 + c.toNat / 64 ^ 3 := by omega
    rw [if_neg (Nat.not_le.2 three), first, Nat.add_comm _ 128, Nat.add_comm _ 128,
      Nat.add_comm _ 128] at bytes
    exact .inr (.inr (.inr ⟨three, by omega, bytes⟩))

/-- The code of a character, of which there are none between 0xd800 and 0xdfff. -/
def IsCode (code : Nat) : Prop := code < 0xd800 ∨ 0xdfff < code ∧ code < 0x110000

def width (code : Nat) : Nat :=
  if code < 0x80 then 1 else if code < 0x800 then 2 else if code < 0x10000 then 3 else 4

def lead (code : Nat) : Nat :=
  if code < 0x80 then code
  else if code < 0x800 then 0xc0 + code / 64
  else if code < 0x10000 then 0xe0 + code / 64 ^ 2
  else 0xf0 + code / 64 ^ 3

theorem utf8Size_eq_width (c : Char) : c.utf8Size = width c.toNat := by
  rw [← String.length_utf8EncodeChar, width]
  rcases encode_cases c with ⟨_, same⟩ | ⟨_, _, same⟩ | ⟨_, _, same⟩ | ⟨_, _, same⟩ <;>
    rw [same] <;> grind

theorem singleton_prefix_encode_iff :
    [byte] <+: String.utf8EncodeChar c ↔ byte.toNat = lead c.toNat := by
  have own {code : Nat} (small : code < 256) : byte = .ofNat code ↔ byte.toNat = code := by
    rw [← UInt8.toNat_inj, UInt8.toNat_ofNat_of_lt' small]
  unfold lead
  rcases encode_cases c with ⟨_, same⟩ | ⟨_, _, same⟩ | ⟨_, _, same⟩ | ⟨_, _, same⟩ <;>
    rw [same, List.cons_prefix_cons, own (by omega)] <;> grind

theorem exists_char_iff {code size : Nat} :
    (∃ c : Char, c.toNat = code ∧ c.utf8Size = size) ↔ IsCode code ∧ width code = size := by
  constructor
  · rintro ⟨c, rfl, rfl⟩
    exact ⟨c.valid, (utf8Size_eq_width c).symm⟩
  · rintro ⟨valid, rfl⟩
    have own : (Char.ofNatAux code valid).toNat = code := rfl
    exact ⟨_, own, by rw [utf8Size_eq_width, own]⟩

theorem getElem?_encode {place due : Nat} (behind : 0 < place)
    (size : c.utf8Size = place + due + 1) :
    (String.utf8EncodeChar c)[place]? = some (.ofNat (0x80 + c.toNat / 64 ^ due % 64)) := by
  rw [← String.length_utf8EncodeChar] at size
  rcases encode_cases c with ⟨_, same⟩ | ⟨_, _, same⟩ | ⟨_, _, same⟩ | ⟨_, _, same⟩ <;>
    rw [same] at size ⊢ <;> simp only [List.length_cons, List.length_nil] at size
  · omega
  · obtain ⟨rfl, rfl⟩ : place = 1 ∧ due = 0 := by omega
    simp
  · obtain ⟨rfl, rfl⟩ | ⟨rfl, rfl⟩ : place = 1 ∧ due = 1 ∨ place = 2 ∧ due = 0 := by omega
    · simp
    · simp
  · obtain ⟨rfl, rfl⟩ | ⟨rfl, rfl⟩ | ⟨rfl, rfl⟩ :
        place = 1 ∧ due = 2 ∨ place = 2 ∧ due = 1 ∨ place = 3 ∧ due = 0 := by omega
    · simp
    · simp
    · simp

-- What begins with a part and one byte more has the byte behind the part.
theorem concat_prefix_iff {α : Type} {front whole : List α} {last : α} :
    front ++ [last] <+: whole ↔ front <+: whole ∧ whole[front.length]? = some last := by
  constructor
  · rintro ⟨rest, rfl⟩
    exact ⟨by simp, by simp⟩
  · rintro ⟨⟨rest, rfl⟩, behind⟩
    rw [List.getElem?_append_right (Nat.le_refl _), Nat.sub_self] at behind
    cases rest with
    | nil => cases behind
    | cons x rest =>
      cases behind
      exact ⟨rest, by simp⟩

theorem Begins.front {last : UInt8} (begins : Begins (part ++ [last])) : Begins part := by
  obtain ⟨c, front⟩ := begins
  exact ⟨c, (List.prefix_append part [last]).trans front⟩

-- No character goes on behind another one.
theorem eq_of_encode_front {d : Char}
    (front : String.utf8EncodeChar c <+: String.utf8EncodeChar d) : c = d := by
  have single (e : Char) : utf8 [e] = String.utf8EncodeChar e := List.append_nil _
  rw [← single, ← single, utf8_prefix_iff, List.cons_prefix_cons] at front
  exact front.1

/-! ### Sequences that have begun -/

/-- A sequence that has begun with some bytes: the characters that begin with them are those that
have its bits in front of the rest, and they go on with the bytes of its range. -/
structure Begun.Holds (begun : Begun) (part : List UInt8) : Prop where
  nonempty : part ≠ []
  low : 0x80 ≤ begun.low.toNat
  nonvoid : begun.low.toNat ≤ begun.high.toNat
  high : begun.high.toNat < 0xc0
  char : ∀ c, part <+: String.utf8EncodeChar c ↔
    c.toNat / 64 ^ (begun.due + 1) = begun.bits ∧ c.utf8Size = part.length + begun.due + 1
  next : ∀ code, code / 64 ^ (begun.due + 1) = begun.bits →
    ((begun.low.toNat ≤ 0x80 + code / 64 ^ begun.due % 64 ∧
        0x80 + code / 64 ^ begun.due % 64 ≤ begun.high.toNat) ↔
      ∃ c : Char, c.toNat = code ∧ c.utf8Size = part.length + begun.due + 1)

namespace Begun.Holds

variable {begun : Begun} (holds : begun.Holds part)
include holds

theorem char_next_iff (byte : UInt8) (c : Char) :
    part ++ [byte] <+: String.utf8EncodeChar c ↔
      (c.toNat / 64 ^ (begun.due + 1) = begun.bits ∧
        c.utf8Size = part.length + begun.due + 1) ∧
      0x80 + c.toNat / 64 ^ begun.due % 64 = byte.toNat := by
  rw [concat_prefix_iff, holds.char]
  refine and_congr_right fun ⟨_, size⟩ => ?_
  have small : 0x80 + c.toNat / 64 ^ begun.due % 64 < 256 := by omega
  rw [getElem?_encode (List.length_pos_iff.2 holds.nonempty) size, Option.some.injEq,
    ← UInt8.toNat_inj, UInt8.toNat_ofNat_of_lt' small]

theorem begins_next_iff (byte : UInt8) :
    Begins (part ++ [byte]) ↔ begun.low ≤ byte ∧ byte ≤ begun.high := by
  have low := holds.low
  have high := holds.high
  rw [UInt8.le_iff_toNat_le, UInt8.le_iff_toNat_le]
  constructor
  · rintro ⟨c, front⟩
    obtain ⟨⟨bits, size⟩, same⟩ := (holds.char_next_iff byte c).1 front
    rw [← same]
    exact (holds.next c.toNat bits).2 ⟨c, rfl, size⟩
  · rintro ⟨least, most⟩
    -- Some code has the bits of the sequence, those of the byte, and nothing behind them.
    have positive : 0 < 64 ^ begun.due := Nat.pow_pos (by decide)
    have six : byte.toNat - 0x80 < 64 := by omega
    have own : (begun.bits * 64 + (byte.toNat - 0x80)) * 64 ^ begun.due / 64 ^ begun.due =
        begun.bits * 64 + (byte.toNat - 0x80) := Nat.mul_div_cancel _ positive
    have bits : (begun.bits * 64 + (byte.toNat - 0x80)) * 64 ^ begun.due / 64 ^ (begun.due + 1) =
        begun.bits := by
      rw [Nat.pow_succ, ← Nat.div_div_eq_div_mul, own]
      omega
    have last : 0x80 + (begun.bits * 64 + (byte.toNat - 0x80)) * 64 ^ begun.due /
        64 ^ begun.due % 64 = byte.toNat := by
      rw [own]
      omega
    obtain ⟨c, code, size⟩ := (holds.next _ bits).1 (by rw [last]; exact ⟨least, most⟩)
    exact ⟨c, (holds.char_next_iff byte c).2 (by rw [code]; exact ⟨⟨bits, size⟩, last⟩)⟩

theorem begins : Begins part := by
  have next := (holds.begins_next_iff begun.low).2
  exact (next ⟨UInt8.le_refl _, UInt8.le_iff_toNat_le.2 holds.nonvoid⟩).front

/-- A sequence with nothing due after the next byte is a character with it. -/
theorem completes (last : begun.due = 0) {byte : UInt8} (begins : Begins (part ++ [byte])) :
    part ++ [byte] = String.utf8EncodeChar (.ofNat (begun.bits * 64 + (byte.toNat - 0x80))) := by
  obtain ⟨c, front⟩ := begins
  obtain ⟨⟨bits, size⟩, same⟩ := (holds.char_next_iff byte c).1 front
  rw [last, Nat.pow_zero, Nat.div_one] at same
  rw [last, Nat.zero_add, Nat.pow_one] at bits
  have code : begun.bits * 64 + (byte.toNat - 0x80) = c.toNat := by omega
  rw [code, Char.ofNat_toNat]
  apply front.eq_of_length
  rw [String.length_utf8EncodeChar, size, last, List.length_append]
  rfl

/-- Any other sequence goes on. -/
theorem goes_on {due : Nat} (left : begun.due = due + 1) {byte : UInt8}
    (inside : begun.low ≤ byte ∧ byte ≤ begun.high) :
    Begun.Holds ⟨begun.bits * 64 + (byte.toNat - 0x80), 0x80, 0xbf, due⟩ (part ++ [byte]) := by
  have low := holds.low
  have high := holds.high
  have least := UInt8.le_iff_toNat_le.1 inside.1
  have most := UInt8.le_iff_toNat_le.1 inside.2
  have cut (code : Nat) : code / 64 ^ (due + 1 + 1) = code / 64 ^ (due + 1) / 64 := by
    rw [Nat.pow_succ _ (due + 1), Nat.div_div_eq_div_mul]
  have length : (part ++ [byte]).length + due + 1 = part.length + (due + 1) + 1 := by
    rw [List.length_append, List.length_singleton]
    omega
  have few : (0x80 : UInt8).toNat = 0x80 := rfl
  have many : (0xbf : UInt8).toNat = 0xbf := rfl
  refine ⟨by simp, Nat.le_of_eq few.symm, by rw [few, many]; decide, by rw [many]; decide,
    fun c => ?_, fun code bits => ?_⟩
  · rw [holds.char_next_iff, left, length, cut]
    dsimp only
    omega
  · dsimp only at bits ⊢
    have before : code / 64 ^ (begun.due + 1) = begun.bits := by
      rw [left, cut, bits]
      omega
    have own : 0x80 + code / 64 ^ begun.due % 64 = byte.toNat := by
      rw [left, bits]
      omega
    have next := holds.next code before
    rw [own, left] at next
    rw [length, ← next]
    omega

end Begun.Holds

-- What a first byte tells is a matter of codes alone.
theorem holds_of_lead {bits due : Nat} {low high : UInt8}
    (range : 0x80 ≤ low.toNat ∧ low.toNat ≤ high.toNat ∧ high.toNat < 0xc0)
    (first : ∀ code, IsCode code →
      (byte.toNat = lead code ↔ code / 64 ^ (due + 1) = bits ∧ width code = due + 2))
    (next : ∀ code, code / 64 ^ (due + 1) = bits →
      ((low.toNat ≤ 0x80 + code / 64 ^ due % 64 ∧ 0x80 + code / 64 ^ due % 64 ≤ high.toNat) ↔
        IsCode code ∧ width code = due + 2)) :
    Begun.Holds ⟨bits, low, high, due⟩ [byte] := by
  have size : [byte].length + due + 1 = due + 2 := by
    rw [List.length_singleton]
    omega
  refine ⟨List.cons_ne_nil _ _, range.1, range.2.1, range.2.2, fun c => ?_, fun code bits => ?_⟩
  · rw [singleton_prefix_encode_iff, size, utf8Size_eq_width]
    exact first c.toNat c.valid
  · rw [size, exists_char_iff]
    exact next code bits

theorem start_reads (byte : UInt8) :
    (∃ c, start byte = ([c], none) ∧ String.utf8EncodeChar c = [byte]) ∨
    (∃ begun, start byte = ([], some begun) ∧ begun.Holds [byte]) ∨
    start byte = ([replacement], none) ∧ ¬ Begins [byte] := by
  have small := byte.toNat_lt
  unfold start
  dsimp only
  split_ifs
  · refine .inl ⟨_, rfl, ?_⟩
    have valid : byte.toNat.isValidChar := .inl (by omega)
    have code : (Char.ofNat byte.toNat).toNat = byte.toNat := by
      rw [Char.ofNat, dif_pos valid]
      rfl
    rw [encode_small (by omega), code, UInt8.ofNat_toNat]
  rotate_right
  · refine .inr (.inr ⟨rfl, ?_⟩)
    rintro ⟨c, front⟩
    have first := singleton_prefix_encode_iff.1 front
    have valid : IsCode c.toNat := c.valid
    grind [lead, IsCode]
  -- The restricted second bytes are those that leave the width of the first byte.
  all_goals
    refine .inr (.inl ⟨_, rfl, holds_of_lead (by decide) (fun code valid => ?_) ?_⟩)
    · grind [lead, width, IsCode]
    · grind [width, IsCode]

/-! ### Broken parts -/

section
variable {rest : List UInt8}

theorem Begins.of_prefix {front : List UInt8} (inside : front <+: part) (begins : Begins part) :
    Begins front := by
  obtain ⟨c, whole⟩ := begins
  exact ⟨c, inside.trans whole⟩

-- A part that does not go on with the next byte is the longest one.
theorem longest_of_cut (cut : ∀ byte ∈ rest.head?, ¬ Begins (part ++ [byte]))
    {longer : List UInt8} (inside : longer <+: part ++ rest) (begins : Begins longer) :
    longer <+: part := by
  rcases List.prefix_or_prefix_of_prefix inside (List.prefix_append part rest) with
    shorter | ⟨more, rfl⟩
  · exact shorter
  · rw [List.prefix_append_right_inj] at inside
    cases more with
    | nil => simp
    | cons byte more =>
      obtain ⟨back, rfl⟩ := inside
      exact absurd (begins.of_prefix ⟨more, by simp⟩) (cut byte rfl)

theorem Begun.Holds.broken {begun : Begun} (holds : begun.Holds part)
    (cut : ∀ byte ∈ rest.head?, ¬ (begun.low ≤ byte ∧ byte ≤ begun.high)) : Broken part rest := by
  have longest {longer : List UInt8} (inside : longer <+: part ++ rest) (begins : Begins longer) :
      longer <+: part :=
    longest_of_cut (fun byte first => mt (holds.begins_next_iff byte).1 (cut byte first)) inside
      begins
  refine ⟨holds.nonempty, .inl holds.begins, fun _ => longest, fun c inside => ?_⟩
  -- A character that stands there would be the part, to which there are bytes due.
  have front := longest inside ⟨c, List.prefix_refl _⟩
  obtain ⟨d, begins⟩ := holds.begins
  obtain rfl := eq_of_encode_front (front.trans begins)
  have size := ((holds.char c).1 begins).2
  have length := front.length_le
  rw [String.length_utf8EncodeChar] at length
  omega

theorem broken_of_not_begins (never : ¬ Begins [byte]) (rest : List UInt8) :
    Broken [byte] rest := by
  have longest {longer : List UInt8} (inside : longer <+: [byte] ++ rest)
      (begins : Begins longer) : longer <+: [byte] :=
    longest_of_cut (fun _ _ more => never more.front) inside begins
  refine ⟨List.cons_ne_nil _ _, .inr rfl, fun _ => longest, fun c inside => ?_⟩
  have whole : Begins (String.utf8EncodeChar c) := ⟨c, List.prefix_refl _⟩
  have front := longest inside whole
  rw [front.eq_of_length_le (encode_pos c)] at whole
  exact never whole

theorem Broken.begins_other {other back : List UInt8} (first : Broken part rest)
    (second : Broken other back) (same : part ++ rest = other ++ back) : part <+: other := by
  have inside : part <+: other ++ back := same ▸ List.prefix_append part rest
  rcases first.begins with begins | single
  · exact second.longest part inside begins
  · apply List.prefix_of_prefix_length_le inside (List.prefix_append other back)
    rw [single]
    exact List.length_pos_iff.2 second.nonempty

theorem Reads.unique {c d : Char} {back : List UInt8} (first : Reads bytes rest c)
    (second : Reads bytes back d) : c = d ∧ rest = back := by
  cases first with
  | whole _ cut =>
    cases second with
    | whole _ cutBack =>
      have inside : String.utf8EncodeChar c <+: bytes := ⟨rest, cut.symm⟩
      have insideBack : String.utf8EncodeChar d <+: bytes := ⟨back, cutBack.symm⟩
      obtain rfl : c = d := by
        rcases List.prefix_or_prefix_of_prefix inside insideBack with front | front
        · exact eq_of_encode_front front
        · exact (eq_of_encode_front front).symm
      exact ⟨rfl, List.append_cancel_left (cut.symm.trans cutBack)⟩
    | broken part cutBack broken =>
      exact absurd ⟨rest, cut.symm.trans cutBack⟩ (broken.unfinished c)
  | broken part cut broken =>
    cases second with
    | whole _ cutBack => exact absurd ⟨back, cutBack.symm.trans cut⟩ (broken.unfinished d)
    | broken other cutBack later =>
      have same := cut.symm.trans cutBack
      have shorter := (later.begins_other broken same.symm).length_le
      obtain rfl := (broken.begins_other later same).eq_of_length_le shorter
      exact ⟨rfl, List.append_cancel_left same⟩

theorem Reads.nonempty (read : Reads bytes rest c) : bytes ≠ [] := by
  rintro rfl
  cases read with
  | whole _ cut =>
    exact List.ne_nil_of_length_pos (encode_pos c) (List.append_eq_nil_iff.1 cut.symm).1
  | broken part cut broken => exact broken.nonempty (List.append_eq_nil_iff.1 cut.symm).1

end

theorem Shows.unique {text other : List Char} (first : Shows bytes text)
    (second : Shows bytes other) : text = other := by
  induction first generalizing other with
  | nil =>
    cases second with
    | nil => rfl
    | cons read _ => exact absurd rfl read.nonempty
  | cons read _ ih =>
    cases second with
    | nil => exact absurd rfl read.nonempty
    | cons again later =>
      obtain ⟨rfl, rfl⟩ := read.unique again
      rw [ih later]

/-! ### Decoding -/

-- The induction is on the bytes to come, for every sequence that may have begun before them.
theorem shows_decodeFrom (bytes : List UInt8) :
    Shows bytes (decode bytes) ∧ ∀ (begun : Begun) (part : List UInt8), begun.Holds part →
      Shows (part ++ bytes) (decodeFrom (some begun) bytes) := by
  induction bytes with
  | nil =>
    exact ⟨.nil, fun begun part holds => .cons (.broken part rfl (holds.broken nofun)) .nil⟩
  | cons byte bytes ih =>
    obtain ⟨afresh, goesOn⟩ := ih
    have first : Shows (byte :: bytes) (decode (byte :: bytes)) := by
      have cut : decode (byte :: bytes) = (start byte).1 ++ decodeFrom (start byte).2 bytes := rfl
      rw [cut]
      rcases start_reads byte with ⟨c, same, whole⟩ | ⟨begun, same, holds⟩ | ⟨same, never⟩ <;>
        rw [same]
      · exact .cons (.whole c (by rw [whole]; rfl)) afresh
      · exact goesOn begun [byte] holds
      · exact .cons (.broken [byte] rfl (broken_of_not_begins never bytes)) afresh
    refine ⟨first, fun begun part holds => ?_⟩
    have again : part ++ byte :: bytes = part ++ [byte] ++ bytes := by simp
    rw [decodeFrom_cons, step]
    split
    next inside =>
      have begins := (holds.begins_next_iff byte).2 inside
      split
      next last => exact .cons (.whole _ (by rw [again, holds.completes last begins])) afresh
      next due left =>
        rw [again]
        exact goesOn _ _ (holds.goes_on left inside)
    next outside =>
      refine .cons (.broken part rfl (holds.broken ?_)) first
      rintro _ ⟨⟩
      exact outside

/-- Decoding reads the characters that are there, and each broken part as one replacement. -/
theorem decode_eq_iff {text : List Char} : decode bytes = text ↔ Shows bytes text := by
  have shows := (shows_decodeFrom bytes).1
  constructor
  · rintro rfl
    exact shows
  · exact shows.unique

theorem decode_utf8 (text : List Char) : decode (utf8 text) = text := by
  rw [decode_eq_iff]
  induction text with
  | nil => exact .nil
  | cons c text ih => exact .cons (.whole c rfl) ih

theorem decode_ne_nil (some : bytes ≠ []) : decode bytes ≠ [] := by
  intro none
  rw [decode_eq_iff] at none
  cases none
  exact some rfl

end Utf8

/-! ### Lines -/

-- A line that is closed stands in front of the other lines.
theorem byteLines_induction {motive : List UInt8 → Prop}
    (isOpen : ∀ body, lineFeed ∉ body → motive body)
    (closed : ∀ body rest, lineFeed ∉ body → motive rest → motive (body ++ lineFeed :: rest))
    (bytes : List UInt8) : motive bytes := by
  by_cases ends : lineFeed ∈ bytes
  · obtain ⟨body, rest, cut, inside⟩ := List.eq_append_cons_of_mem ends
    rw [cut]
    exact closed body rest inside (byteLines_induction isOpen closed rest)
  · exact isOpen bytes ends
termination_by bytes.length
decreasing_by simp [cut]; omega

theorem map_decode_byteLines (bytes : List UInt8) :
    (byteLines bytes).map Utf8.decode = lines (Utf8.decode bytes) := by
  have inside {body : List UInt8} (own : lineFeed ∉ body) :
      ∀ c ∈ Utf8.decode body, (c == '\n') = false := fun c member =>
    beq_false_of_ne fun same => Utf8.lineFeed_not_mem_decode own (same ▸ member)
  induction bytes using byteLines_induction with
  | isOpen body own =>
    by_cases empty : body = []
    · rw [empty]
      rfl
    · rw [Source.byteLines_open own empty, List.map_singleton, lines,
        cutAfter_open (inside own) (Utf8.decode_ne_nil empty)]
  | closed body rest own ih =>
    rw [Source.byteLines_closed own, List.map_cons, ih, Utf8.decode_lineFeed, Utf8.decode_lineFeed,
      lines, lines, cutAfter_closed (inside own) (by rfl)]
    rfl

/-- There are as many line feeds in the text as in the bytes. -/
theorem count_decode (bytes : List UInt8) :
    (Utf8.decode bytes).count '\n' = bytes.count lineFeed := by
  have none {body : List UInt8} (own : lineFeed ∉ body) :
      (Utf8.decode body).count '\n' = body.count lineFeed := by
    rw [List.count_eq_zero.2 own, List.count_eq_zero.2 (Utf8.lineFeed_not_mem_decode own)]
  induction bytes using byteLines_induction with
  | isOpen body own => exact none own
  | closed body rest own ih =>
    rw [Utf8.decode_lineFeed, List.count_append, List.count_append, List.count_cons_self,
      List.count_cons_self, none own, ih]

/-- What stands before a line feed and what stands behind it are decoded apart. -/
theorem lines_decode_append (front back : List UInt8) :
    lines (Utf8.decode (front ++ lineFeed :: back)) =
      lines (Utf8.decode front ++ ['\n']) ++ lines (Utf8.decode back) := by
  rw [Utf8.decode_lineFeed, lines, cutAfter_append (by rfl), ← lines, ← lines]

/-- Bytes that are cut into lines and decoded line by line show the lines of the text that they show
as a whole. The text has the characters that the bytes are made of, and one replacement character
for each broken part. No line depends on bytes of another, none is lost, and none is added; a run
follows the lines of the text. -/
theorem broken_bytes_stay_on_their_line :
    (∀ bytes, (byteLines bytes).map Utf8.decode = lines (Utf8.decode bytes)) ∧
    (∀ text, Utf8.decode (utf8 text) = text) ∧
    (∀ front back, lines (Utf8.decode (front ++ lineFeed :: back)) =
      lines (Utf8.decode front ++ ['\n']) ++ lines (Utf8.decode back)) ∧
    (∀ bytes, (Utf8.decode bytes).count '\n' = bytes.count lineFeed) ∧
    (∀ bytes text, Utf8.decode bytes = text ↔ Utf8.Shows bytes text) ∧
    ∀ (State : Type) (engine : Engine Unit State) (session : Session State) (bytes : List UInt8)
      (size : Source.BufferSize),
      let result := session.run engine (.ofBytes bytes size false)
      let followed := session.follow engine
        (Session.throughQuit ((lines (Utf8.decode bytes)).map unended))
      result.session = followed.1 ∧ Event.effects result.events = Event.effects followed.2 := by
  refine ⟨map_decode_byteLines, Utf8.decode_utf8, lines_decode_append, count_decode,
    fun _ _ => Utf8.decode_eq_iff, fun State engine session bytes size => ?_⟩
  have heard : (lines (Utf8.decode bytes)).map unended = (byteLines bytes).map received := by
    rw [← map_decode_byteLines, List.map_map]
    rfl
  have whole : session.run engine (.ofBytes bytes size false) =
      session.serveAll engine false (byteLines bytes) := by
    rw [Session.run_eq_serveAll, Source.lines_ofBytes]
    rfl
  obtain ⟨last, effects, -⟩ := Session.serveAll_follow engine false session (byteLines bytes)
  rw [whole, heard]
  exact ⟨last, effects⟩

-- A sequence that a line feed cuts off is broken on either line.
example :
    (byteLines [0xe2, 0x82, 0x0a, 0xac, 0x41, 0x0a]).map Utf8.decode =
      [['\ufffd', '\n'], ['\ufffd', 'A', '\n']] := by
  decide

end UciProtocol.Text
