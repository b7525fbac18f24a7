import Mathlib.Order.Bounds.Defs
import UciProtocol.Proofs.ByteOffsets

/-! The offsets that a search for a keyword gives.

What stands in a text is told here by bytes alone. The bytes of a word can only be met where a
character begins, so they stand just where the word does. A search gives an offset at which its
word is set apart; for a word without separators it gives the least of all of them, or the greatest,
although the scan behind it leaves out the places that overlap.
-/

set_option autoImplicit false

namespace UciProtocol.Text

/-- The bytes of a word stand at an offset of a text, and on either side stands a separator or
nothing. -/
structure SetApartAt (word text : List Char) (offset : Nat) : Prop where
  stands : utf8 word <+: (utf8 text).drop offset
  before : offset = 0 ∨ ∃ byte ∈ (utf8 text)[offset - 1]?, isSeparatorByte byte = true
  behind : offset + (utf8 word).length = (utf8 text).length ∨
    ∃ byte ∈ (utf8 text)[offset + (utf8 word).length]?, isSeparatorByte byte = true

variable {word text : List Char} {offset : Nat}

/-! ### Bytes of a word -/

-- No character begins with the bytes of another, so bytes that begin alike are of texts that do.
theorem utf8_prefix_iff : utf8 word <+: utf8 text ↔ word <+: text := by
  constructor
  · rintro ⟨rest, same⟩
    apply List.isPrefix_of_utf8Encode_append_eq_utf8Encode rest.toByteArray
    rw [List.utf8Encode, List.utf8Encode, ← List.toByteArray_append]
    exact congrArg List.toByteArray same
  · rintro ⟨rest, rfl⟩
    exact ⟨utf8 rest, (utf8_append word rest).symm⟩

theorem isBoundary_of_stands (nonempty : word ≠ [])
    (stands : utf8 word <+: (utf8 text).drop offset) : IsBoundary (utf8 text) offset := by
  obtain ⟨rest, same⟩ := stands
  cases word with
  | nil => exact absurd rfl nonempty
  | cons c word =>
    have inside := encode_pos c
    have first : (String.utf8EncodeChar c)[0].IsUTF8FirstByte :=
      UInt8.isUTF8FirstByte_getElem_utf8EncodeChar.2 rfl
    refine .inr ⟨_, ?_, first⟩
    have head : ((utf8 text).drop offset)[0]? = some (String.utf8EncodeChar c)[0] := by
      rw [← same, utf8_cons, List.append_assoc, List.getElem?_append_left inside]
      exact List.getElem?_eq_getElem inside
    rwa [List.getElem?_drop, Nat.add_zero] at head

theorem stands_of_mem {o : Occurrence} (place : o ∈ occurrences word text) :
    utf8 word <+: (utf8 text).drop o.offset := by
  rw [mem_occurrences.1 place, List.append_assoc, utf8_append, ← o.size_before,
    List.drop_left' (length_utf8 o.before), utf8_append]
  exact List.prefix_append _ _

/-- The bytes of a word stand just where the word stands. -/
theorem stands_iff (nonempty : word ≠ []) :
    utf8 word <+: (utf8 text).drop offset ↔ ∃ o ∈ occurrences word text, o.offset = offset := by
  constructor
  · intro stands
    have cut := cutAt?_isSome_iff.2 (isBoundary_of_stands nonempty stands)
    obtain ⟨⟨front, back⟩, found⟩ := Option.isSome_iff_exists.1 cut
    obtain ⟨rfl, rfl⟩ := cutAt?_eq_some_iff.1 found
    rw [utf8_append, List.drop_left' (length_utf8 front), utf8_prefix_iff] at stands
    obtain ⟨after, rfl⟩ := stands
    have before : (Occurrence.mk front.reverse after).before = front := List.reverse_reverse front
    refine ⟨⟨front.reverse, after⟩, mem_occurrences.2 ?_, utf8Size_reverse front⟩
    rw [before, List.append_assoc]
  · rintro ⟨o, place, rfl⟩
    exact stands_of_mem place

/-! ### Places that are set apart -/

theorem edge_or_separator_iff {edge : Prop} [Decidable edge] {bytes : List UInt8} {index : Nat} :
    (if edge then some true else separatorAt? bytes index) = some true ↔
      edge ∨ ∃ byte ∈ bytes[index]?, isSeparatorByte byte = true := by
  unfold separatorAt?
  split
  next here => exact iff_of_true rfl (.inl here)
  next away =>
    rw [Option.map_eq_some_iff]
    simp only [away, false_or, Option.mem_def]

theorem bounded_iff {o : Occurrence} (place : o ∈ occurrences word text) :
    o.Bounded ↔ SetApartAt word text o.offset := by
  have before := boundedBefore?_eq place
  have behind := boundedBehind?_eq place
  rw [← length_utf8 word] at behind
  constructor
  · rintro ⟨left, right⟩
    rw [left] at before
    rw [right] at behind
    exact ⟨stands_of_mem place, edge_or_separator_iff.1 before, edge_or_separator_iff.1 behind⟩
  · rintro ⟨-, left, right⟩
    rw [boundedBefore?, edge_or_separator_iff.2 left] at before
    rw [boundedBehind?, edge_or_separator_iff.2 right] at behind
    exact ⟨(Option.some.inj before).symm, (Option.some.inj behind).symm⟩

theorem setApartAt_iff (nonempty : word ≠ []) :
    SetApartAt word text offset ↔ ∃ o ∈ occurrences word text, o.Bounded ∧ o.offset = offset := by
  constructor
  · intro apart
    obtain ⟨o, place, rfl⟩ := (stands_iff nonempty).1 apart.stands
    exact ⟨o, place, (bounded_iff place).2 apart, rfl⟩
  · rintro ⟨o, place, bounded, rfl⟩
    exact (bounded_iff place).1 bounded

/-! ### Searches -/

-- The offset of what is first found in places that are sorted by how far they are away.
theorem map_offset_find? {p : Occurrence → Bool} {places : List Occurrence}
    {measure : Occurrence → Nat} (sorted : places.Pairwise (measure · < measure ·)) :
    (places.find? p).map (·.offset) = some offset ↔
      ∃ o, (o ∈ places ∧ p o = true ∧
        ∀ other ∈ places, p other = true → measure o ≤ measure other) ∧ o.offset = offset := by
  simp only [Option.map_eq_some_iff, find?_eq_some_iff_least sorted]

theorem offset_le {o : Occurrence} (place : o ∈ occurrences word text) :
    o.offset ≤ utf8Size text := by
  rw [mem_occurrences.1 place, utf8Size_append, utf8Size_append, o.size_before]
  omega

-- Places further to the left have more behind them.
theorem occurrences_left :
    (occurrences word text).reverse.Pairwise fun later first =>
      utf8Size text - later.offset < utf8Size text - first.offset := by
  apply List.pairwise_reverse.2
  apply occurrences_offset.imp_of_mem
  intro first later _ place less
  have := offset_le place
  omega

theorem solid_of_bytes (solid : ∀ byte ∈ utf8 word, isSeparatorByte byte = false) :
    ∀ c ∈ word, isSeparator c = false := by
  intro c member
  obtain ⟨byte, inside⟩ := List.exists_mem_of_length_pos (encode_pos c)
  rw [← isSeparatorByte_encode inside]
  exact solid byte (List.mem_flatMap.2 ⟨c, member, inside⟩)

section
variable (nonempty : word ≠ []) (solid : ∀ c ∈ word, isSeparator c = false)
include nonempty solid

theorem firstOffset_eq_some_iff :
    (firstBounded? word text).map (·.offset) = some offset ↔
      IsLeast {place | SetApartAt word text place} offset := by
  rw [firstBounded?_eq_find? nonempty solid, map_offset_find? occurrences_offset]
  simp only [decide_eq_true_eq]
  constructor
  · rintro ⟨o, ⟨place, bounded, least⟩, rfl⟩
    refine ⟨(bounded_iff place).1 bounded, fun other apart => ?_⟩
    obtain ⟨_, other_place, other_bounded, rfl⟩ := (setApartAt_iff nonempty).1 apart
    exact least _ other_place other_bounded
  · rintro ⟨apart, least⟩
    obtain ⟨o, place, bounded, rfl⟩ := (setApartAt_iff nonempty).1 apart
    refine ⟨o, ⟨place, bounded, fun other other_place other_bounded => ?_⟩, rfl⟩
    exact least ((bounded_iff other_place).1 other_bounded)

theorem lastOffset_eq_some_iff {least : Nat} :
    (lastBounded? word text least).map (·.offset) = some offset ↔
      IsGreatest {place | least ≤ place ∧ SetApartAt word text place} offset := by
  rw [lastBounded?_eq_find? nonempty solid, map_offset_find? occurrences_left]
  simp only [Bool.and_eq_true, decide_eq_true_eq, List.mem_reverse]
  constructor
  · rintro ⟨o, ⟨place, ⟨late, bounded⟩, last⟩, rfl⟩
    refine ⟨⟨late, (bounded_iff place).1 bounded⟩, ?_⟩
    rintro _ ⟨other_late, apart⟩
    obtain ⟨other, other_place, other_bounded, rfl⟩ := (setApartAt_iff nonempty).1 apart
    have := last other other_place ⟨other_late, other_bounded⟩
    have := offset_le place
    have := offset_le other_place
    omega
  · rintro ⟨⟨late, apart⟩, last⟩
    obtain ⟨o, place, bounded, rfl⟩ := (setApartAt_iff nonempty).1 apart
    refine ⟨o, ⟨place, ⟨late, bounded⟩, ?_⟩, rfl⟩
    rintro other other_place ⟨other_late, other_bounded⟩
    have : other.offset ≤ o.offset :=
      last ⟨other_late, (bounded_iff other_place).1 other_bounded⟩
    omega

theorem firstOffset_eq_none_iff :
    (firstBounded? word text).map (·.offset) = none ↔ ∀ place, ¬ SetApartAt word text place := by
  rw [Option.map_eq_none_iff, firstBounded?_eq_find? nonempty solid, List.find?_eq_none]
  simp only [decide_eq_true_eq, setApartAt_iff nonempty]
  constructor
  · rintro none _ ⟨o, place, bounded, _⟩
    exact none o place bounded
  · intro none o place bounded
    exact none o.offset ⟨o, place, bounded, rfl⟩

theorem lastOffset_eq_none_iff {least : Nat} :
    (lastBounded? word text least).map (·.offset) = none ↔
      ∀ place, least ≤ place → ¬ SetApartAt word text place := by
  rw [Option.map_eq_none_iff, lastBounded?_eq_find? nonempty solid, List.find?_eq_none]
  simp only [Bool.and_eq_true, decide_eq_true_eq, setApartAt_iff nonempty, List.mem_reverse]
  constructor
  · rintro none _ late ⟨o, place, bounded, rfl⟩
    exact none o place ⟨late, bounded⟩
  · rintro none o place ⟨late, bounded⟩
    exact none o.offset late ⟨o, place, bounded, rfl⟩

end

-- A word stands between characters.
theorem isBoundary_of_mem {o : Occurrence} (place : o ∈ occurrences word text) :
    IsBoundary (utf8 text) o.offset ∧ IsBoundary (utf8 text) (o.offset + utf8Size word) := by
  rw [← cutAt?_isSome_iff, ← cutAt?_isSome_iff, cutAt?_before place, cutAt?_behind place]
  exact ⟨rfl, rfl⟩

/-- What the searches give. An offset that is found is one at which the word is set apart, between
characters of the text; of a word that holds no separator the search from the left finds the first
such offset, the search from the right the last one from `least` on, and nothing is found only
where there is none. -/
theorem found_offset_is_outermost (word text : List Char) :
    (∀ offset, (firstBounded? word text).map (·.offset) = some offset →
      SetApartAt word text offset ∧ IsBoundary (utf8 text) offset ∧
        IsBoundary (utf8 text) (offset + utf8Size word)) ∧
    (∀ least offset, (lastBounded? word text least).map (·.offset) = some offset →
      least ≤ offset ∧ SetApartAt word text offset ∧ IsBoundary (utf8 text) offset ∧
        IsBoundary (utf8 text) (offset + utf8Size word)) ∧
    (word ≠ [] → (∀ byte ∈ utf8 word, isSeparatorByte byte = false) →
      (∀ offset, (firstBounded? word text).map (·.offset) = some offset ↔
        IsLeast {place | SetApartAt word text place} offset) ∧
      ((firstBounded? word text).map (·.offset) = none ↔
        ∀ place, ¬ SetApartAt word text place) ∧
      ∀ least,
        (∀ offset, (lastBounded? word text least).map (·.offset) = some offset ↔
          IsGreatest {place | least ≤ place ∧ SetApartAt word text place} offset) ∧
        ((lastBounded? word text least).map (·.offset) = none ↔
          ∀ place, least ≤ place → ¬ SetApartAt word text place)) := by
  refine ⟨fun offset found => ?_, fun least offset found => ?_, fun nonempty solid => ?_⟩
  · obtain ⟨o, met, rfl⟩ := Option.map_eq_some_iff.1 found
    obtain ⟨place, bounded⟩ := firstBounded?_sound met
    exact ⟨(bounded_iff place).1 bounded, isBoundary_of_mem place⟩
  · obtain ⟨o, met, rfl⟩ := Option.map_eq_some_iff.1 found
    obtain ⟨place, bounded, late⟩ := lastBounded?_sound met
    exact ⟨late, (bounded_iff place).1 bounded, isBoundary_of_mem place⟩
  · have solid := solid_of_bytes solid
    exact ⟨fun _ => firstOffset_eq_some_iff nonempty solid, firstOffset_eq_none_iff nonempty solid,
      fun _ => ⟨fun _ => lastOffset_eq_some_iff nonempty solid,
        lastOffset_eq_none_iff nonempty solid⟩⟩

/-- A word that overlaps itself, behind a character of two bytes. -/
theorem finds_word_that_overlaps_itself :
    ['a', 'a'] ≠ [] ∧ (∀ byte ∈ utf8 ['a', 'a'], isSeparatorByte byte = false) ∧
    (firstBounded? ['a', 'a'] "éaaa aa	aa aaa".toList).map (·.offset) = some 6 ∧
    IsLeast {place | SetApartAt ['a', 'a'] "éaaa aa	aa aaa".toList place} 6 ∧
    IsGreatest {place | 4 ≤ place ∧ SetApartAt ['a', 'a'] "éaaa aa	aa aaa".toList place} 9 ∧
    ∀ place, 10 ≤ place → ¬ SetApartAt ['a', 'a'] "éaaa aa	aa aaa".toList place := by
  have first : (firstBounded? ['a', 'a'] "éaaa aa	aa aaa".toList).map (·.offset) = some 6 := by
    decide
  have solid : ∀ byte ∈ utf8 ['a', 'a'], isSeparatorByte byte = false := by
    decide +kernel
  obtain ⟨_, _, outermost⟩ := found_offset_is_outermost ['a', 'a'] "éaaa aa	aa aaa".toList
  obtain ⟨least, _, last⟩ := outermost (by decide) solid
  exact ⟨by decide, solid, first, (least 6).1 first, ((last 4).1 9).1 (by decide),
    (last 10).2.1 (by decide)⟩

end UciProtocol.Text
