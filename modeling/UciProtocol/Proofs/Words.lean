import UciProtocol.Text.Blank

/-! Words and the blanks around them.

A text whose first word is known is cut into the blanks before the word, the word, and a rest that
is empty or begins with a blank; the words of the rest are the other words. Words that are written
with single spaces between them are read as they were.
-/

set_option autoImplicit false

namespace UciProtocol.Text

theorem words_nil : words [] = [] := rfl

theorem isBlank_of_isDigit {c : Char} (digit : c.isDigit = true) : isBlank c = false := by
  have ⟨least, greatest⟩ : 48 ≤ c.toNat ∧ c.toNat ≤ 57 := by
    simpa [Char.isDigit, UInt32.le_iff_toNat_le] using digit
  simp [isBlank, blankRanges]
  omega

-- A blank belongs to no word, so a text is cut there.
theorem words_append_blank {c : Char} (blank : isBlank c = true) (front back : List Char) :
    words (front ++ c :: back) = words front ++ words back := by
  unfold words
  rw [List.splitOnP_append_cons front back blank, List.filter_append]

theorem words_cons_blank {c : Char} (blank : isBlank c = true) (text : List Char) :
    words (c :: text) = words text := by
  simpa only [List.nil_append, words_nil] using words_append_blank blank [] text

theorem words_blanks_append {lead : List Char} (blanks : ∀ c ∈ lead, isBlank c = true)
    (text : List Char) : words (lead ++ text) = words text := by
  induction lead with
  | nil => rfl
  | cons c lead ih =>
    have rest : ∀ d ∈ lead, isBlank d = true := fun d member => blanks d (by simp [member])
    rw [List.cons_append, words_cons_blank (blanks c (by simp)), ih rest]

theorem words_append_blanks {tail : List Char} (blanks : ∀ c ∈ tail, isBlank c = true)
    (text : List Char) : words (text ++ tail) = words text := by
  cases tail with
  | nil => rw [List.append_nil]
  | cons c tail =>
    obtain ⟨blank, rest⟩ := List.forall_mem_cons.1 blanks
    have none : words tail = [] := by
      simpa only [List.append_nil, words_nil] using words_blanks_append rest []
    rw [words_append_blank blank, none, List.append_nil]

theorem words_solid {word : List Char} (nonempty : word ≠ [])
    (solid : ∀ c ∈ word, isBlank c = false) : words word = [word] := by
  unfold words
  rw [List.splitOnP_eq_singleton solid]
  simp [nonempty]

theorem words_solid_append {word rest : List Char} (nonempty : word ≠ [])
    (solid : ∀ c ∈ word, isBlank c = false) (apart : ∀ c ∈ rest.head?, isBlank c = true) :
    words (word ++ rest) = word :: words rest := by
  cases rest with
  | nil => rw [List.append_nil, words_solid nonempty solid, words_nil]
  | cons c rest =>
    have blank : isBlank c = true := apart c rfl
    rw [words_append_blank blank, words_solid nonempty solid, words_cons_blank blank]
    rfl

-- A text is its leading blanks, a first piece without blanks, and a rest that a blank begins.
theorem lead_piece_rest (text : List Char) :
    ∃ lead piece rest, text = lead ++ piece ++ rest ∧ (∀ c ∈ lead, isBlank c = true) ∧
      (∀ c ∈ piece, isBlank c = false) ∧ (∀ c ∈ rest.head?, isBlank c = true) ∧
      (piece = [] → rest = []) := by
  refine ⟨text.takeWhile isBlank, (trimStart text).takeWhile (!isBlank ·), afterFirstWord text,
    ?_, ?_, ?_, ?_, ?_⟩
  · rw [List.append_assoc, afterFirstWord, List.takeWhile_append_dropWhile, trimStart,
      List.takeWhile_append_dropWhile]
  · exact List.all_eq_true.1 List.all_takeWhile
  · intro c member
    simpa using List.all_eq_true.1 List.all_takeWhile c member
  · intro c member
    have := List.head?_dropWhile_not (!isBlank ·) (trimStart text)
    rw [afterFirstWord] at member
    rw [Option.mem_def.1 member] at this
    simpa using this
  · intro empty
    have first := List.head?_dropWhile_not isBlank text
    rw [afterFirstWord]
    unfold trimStart at empty ⊢
    cases same : text.dropWhile isBlank with
    | nil => rfl
    | cons c back =>
      rw [same] at first empty
      simp_all

-- What is left behind the blanks and the first piece is the rest.
theorem afterFirstWord_append {lead piece rest : List Char}
    (blanks : ∀ c ∈ lead, isBlank c = true) (solid : ∀ c ∈ piece, isBlank c = false)
    (apart : ∀ c ∈ rest.head?, isBlank c = true) (stop : piece = [] → rest = []) :
    afterFirstWord (lead ++ piece ++ rest) = rest := by
  have behind : (piece ++ rest).dropWhile isBlank = piece ++ rest := by
    cases piece with
    | nil => rw [stop rfl]; rfl
    | cons c piece =>
      have solidHead : ¬ isBlank c = true := by simp [solid c (by simp)]
      rw [List.cons_append, List.dropWhile_cons_of_neg solidHead]
  unfold afterFirstWord trimStart
  rw [List.append_assoc, List.dropWhile_append_of_pos blanks, behind,
    List.dropWhile_append_of_pos (fun c member => by simp [solid c member])]
  cases rest with
  | nil => rfl
  | cons c rest =>
    have blank : isBlank c = true := apart c rfl
    exact List.dropWhile_cons_of_neg (by simp [blank])

-- Where the first word of a text stands.
theorem words_eq_cons {text word : List Char} {others : List (List Char)}
    (first : words text = word :: others) :
    ∃ lead rest, text = lead ++ word ++ rest ∧ (∀ c ∈ lead, isBlank c = true) ∧
      (∀ c ∈ rest.head?, isBlank c = true) ∧ afterFirstWord text = rest ∧ words rest = others := by
  obtain ⟨lead, piece, rest, rfl, blanks, solid, apart, stop⟩ := lead_piece_rest text
  have behind := afterFirstWord_append blanks solid apart stop
  rw [List.append_assoc, words_blanks_append blanks] at first
  by_cases empty : piece = []
  · rw [empty, stop empty, List.append_nil, words_nil] at first
    cases first
  · rw [words_solid_append empty solid apart] at first
    cases first
    exact ⟨lead, rest, rfl, blanks, apart, behind, rfl⟩

-- Where the first token of a line stands.
theorem tokens_eq_cons {line word : String} {others : List String}
    (first : tokens line = word :: others) :
    ∃ lead, line.toList = lead ++ word.toList ++ afterFirstWord line.toList ∧
      (∀ c ∈ lead, isBlank c = true) ∧
      ∀ c ∈ (afterFirstWord line.toList).head?, isBlank c = true := by
  obtain ⟨letters, _, same, rfl, _⟩ := List.map_eq_cons_iff.1 first
  obtain ⟨lead, rest, cut, blanks, apart, behind, _⟩ := words_eq_cons same
  rw [behind, String.toList_ofList]
  exact ⟨lead, cut, blanks, apart⟩

theorem trim_cons_blank {c : Char} (blank : isBlank c = true) (text : List Char) :
    trim (c :: text) = trim text := by
  unfold trim trimStart
  rw [List.dropWhile_cons_of_pos blank]

/-! ### Phrases -/

/-- A text that is not empty, and that no blank begins or ends. -/
structure IsPhrase (text : List Char) : Prop where
  nonempty : text ≠ []
  begins : ∀ c ∈ text.head?, isBlank c = false
  ends : ∀ c ∈ text.getLast?, isBlank c = false

instance (text : List Char) : Decidable (IsPhrase text) :=
  decidable_of_iff (text ≠ [] ∧ text.head?.all (!isBlank ·) ∧ text.getLast?.all (!isBlank ·))
    ⟨fun ⟨nonempty, begins, ends⟩ =>
        ⟨nonempty, by simpa [Option.all_eq_true] using begins,
          by simpa [Option.all_eq_true] using ends⟩,
      fun ⟨nonempty, begins, ends⟩ =>
        ⟨nonempty, by simpa [Option.all_eq_true] using begins,
          by simpa [Option.all_eq_true] using ends⟩⟩

theorem IsPhrase.join {front back : List Char} (first : IsPhrase front) (between : List Char)
    (last : IsPhrase back) : IsPhrase (front ++ between ++ back) where
  nonempty := by simp [first.nonempty]
  begins := by
    have some : front.head?.isSome = true := by simp [first.nonempty]
    rw [List.append_assoc, List.head?_append, Option.or_of_isSome some]
    exact first.begins
  ends := by
    have some : back.getLast?.isSome = true := by simp [last.nonempty]
    rw [List.getLast?_append, Option.or_of_isSome some]
    exact last.ends

theorem dropWhile_phrase {text : List Char} (nonempty : text ≠ [])
    (begins : ∀ c ∈ text.head?, isBlank c = false) {lead : List Char}
    (blanks : ∀ c ∈ lead, isBlank c = true) (tail : List Char) :
    (lead ++ (text ++ tail)).dropWhile isBlank = text ++ tail := by
  rw [List.dropWhile_append_of_pos blanks]
  cases text with
  | nil => exact absurd rfl nonempty
  | cons c text =>
    have solid : ¬ isBlank c = true := by simp [begins c rfl]
    rw [List.cons_append, List.dropWhile_cons_of_neg solid]

-- Trimming takes away the blanks around a phrase and nothing else.
theorem trim_phrase {text : List Char} (phrase : IsPhrase text) (lead tail : List Char)
    (before : ∀ c ∈ lead, isBlank c = true) (behind : ∀ c ∈ tail, isBlank c = true) :
    trim (lead ++ text ++ tail) = text := by
  have ends : ∀ c ∈ text.reverse.head?, isBlank c = false := by
    rw [List.head?_reverse]
    exact phrase.ends
  have reversed : text.reverse ≠ [] := by simpa using phrase.nonempty
  have blanks : ∀ c ∈ tail.reverse, isBlank c = true :=
    fun c member => behind c (List.mem_reverse.1 member)
  have back := dropWhile_phrase reversed ends blanks []
  rw [List.append_nil] at back
  rw [trim, trimStart, List.append_assoc, dropWhile_phrase phrase.nonempty phrase.begins before,
    dropTail, List.reverse_append, back, List.reverse_reverse]

theorem dropTail_append {α : Type} (p : α → Bool) (text : List α) :
    dropTail p text ++ (text.reverse.takeWhile p).reverse = text := by
  rw [dropTail, ← List.reverse_append, List.takeWhile_append_dropWhile, List.reverse_reverse]

theorem takeWhile_blanks (text : List Char) : ∀ c ∈ text.takeWhile isBlank, isBlank c = true :=
  List.all_eq_true.1 List.all_takeWhile

-- What trimming takes away are blanks.
theorem exists_trim (text : List Char) :
    ∃ lead tail, text = lead ++ trim text ++ tail ∧ (∀ c ∈ lead, isBlank c = true) ∧
      ∀ c ∈ tail, isBlank c = true := by
  refine ⟨text.takeWhile isBlank, ((trimStart text).reverse.takeWhile isBlank).reverse, ?_,
    takeWhile_blanks text, fun c member => takeWhile_blanks _ c (List.mem_reverse.1 member)⟩
  rw [List.append_assoc, trim, dropTail_append, trimStart, List.takeWhile_append_dropWhile]

theorem trim_within (text : List Char) : trim text <:+: text := by
  obtain ⟨lead, tail, cut, -, -⟩ := exists_trim text
  exact ⟨lead, tail, cut.symm⟩

theorem isPhrase_trim {text : List Char} (nonempty : trim text ≠ []) : IsPhrase (trim text) where
  nonempty := nonempty
  begins := by
    have first := List.head?_dropWhile_not isBlank text
    have same : (trimStart text).head? = (trim text).head? := by
      rw [← dropTail_append isBlank (trimStart text), List.head?_append,
        Option.or_of_isSome (by simpa [trim] using nonempty), trim]
    intro c member
    rw [← same, trimStart] at member
    rw [Option.mem_def.1 member] at first
    simpa using first
  ends := by
    have last := List.head?_dropWhile_not isBlank (trimStart text).reverse
    intro c member
    rw [trim, dropTail, List.getLast?_reverse] at member
    rw [Option.mem_def.1 member] at last
    simpa using last

theorem IsPhrase.lead_eq_nil {lead rest : List Char} (phrase : IsPhrase (lead ++ rest))
    (blanks : ∀ c ∈ lead, isBlank c = true) : lead = [] := by
  cases lead with
  | nil => rfl
  | cons c lead => simpa [blanks c List.mem_cons_self] using phrase.begins c rfl

theorem IsPhrase.tail_eq_nil {front tail : List Char} (phrase : IsPhrase (front ++ tail))
    (blanks : ∀ c ∈ tail, isBlank c = true) : tail = [] := by
  rcases List.eq_nil_or_concat tail with rfl | ⟨tail, c, rfl⟩
  · rfl
  · have last := phrase.ends c (by simp)
    simp [blanks c (by simp)] at last

theorem IsPhrase.trim_eq {text : List Char} (phrase : IsPhrase text) : trim text = text := by
  simpa using trim_phrase phrase [] [] (by simp) (by simp)

theorem trim_blanks {text : List Char} (blanks : ∀ c ∈ text, isBlank c = true) :
    trim text = [] := by
  induction text with
  | nil => rfl
  | cons c text ih =>
    obtain ⟨blank, rest⟩ := List.forall_mem_cons.1 blanks
    rw [trim_cons_blank blank, ih rest]

-- Blanks around a text are trimmed away with its own.
theorem trim_around (text : List Char) {lead tail : List Char}
    (before : ∀ c ∈ lead, isBlank c = true) (behind : ∀ c ∈ tail, isBlank c = true) :
    trim (lead ++ text ++ tail) = trim text := by
  obtain ⟨first, last, cut, first_blank, last_blank⟩ := exists_trim text
  have whole : lead ++ text ++ tail = (lead ++ first) ++ trim text ++ (last ++ tail) :=
    calc
      lead ++ text ++ tail = lead ++ (first ++ trim text ++ last) ++ tail := by rw [← cut]
      _ = (lead ++ first) ++ trim text ++ (last ++ tail) := by simp only [List.append_assoc]
  have front := List.forall_mem_append.2 ⟨before, first_blank⟩
  have back := List.forall_mem_append.2 ⟨last_blank, behind⟩
  rw [whole]
  by_cases empty : trim text = []
  · rw [empty, List.append_nil]
    exact trim_blanks (List.forall_mem_append.2 ⟨front, back⟩)
  · exact trim_phrase (isPhrase_trim empty) _ _ front back

theorem trim_trimStart (text : List Char) : trim (trimStart text) = trim text := by
  have around := trim_around (trimStart text) (takeWhile_blanks text) (List.forall_mem_nil _)
  rw [List.append_nil, trimStart, List.takeWhile_append_dropWhile] at around
  exact around.symm

theorem words_trimStart (text : List Char) : words (trimStart text) = words text := by
  have behind := words_blanks_append (takeWhile_blanks text) (trimStart text)
  rw [trimStart, List.takeWhile_append_dropWhile] at behind
  exact behind.symm

theorem words_trim (text : List Char) : words (trim text) = words text := by
  obtain ⟨lead, tail, cut, before, behind⟩ := exists_trim text
  have whole := words_append_blanks behind (lead ++ trim text)
  rw [← cut, words_blanks_append before] at whole
  exact whole.symm

theorem IsPhrase.trim_concat {text : List Char} (phrase : IsPhrase text) {c : Char}
    (blank : isBlank c = true) : trim (text ++ [c]) = text := by
  simpa using trim_phrase phrase [] [c] (by simp) (by simp [blank])

/-! ### Words that are written out -/

def IsWord (text : String) : Prop := text ≠ "" ∧ ∀ c ∈ text.toList, isBlank c = false

instance (text : String) : Decidable (IsWord text) :=
  decidable_of_iff (text ≠ "" ∧ text.toList.all (!isBlank ·)) (by simp [IsWord])

theorem solid_of_mem_splitOnP {text piece : List Char} (member : piece ∈ text.splitOnP isBlank) :
    ∀ c ∈ piece, isBlank c = false := by
  induction text generalizing piece with
  | nil =>
    obtain rfl := List.mem_singleton.1 member
    exact fun c inside => absurd inside List.not_mem_nil
  | cons c text ih =>
    rw [List.splitOnP_cons_eq_if_modifyHead] at member
    split at member
    next =>
      rcases List.mem_cons.1 member with rfl | later
      · exact fun c inside => absurd inside List.not_mem_nil
      · exact ih later
    next solid =>
      obtain ⟨first, pieces, same⟩ := List.exists_cons_of_ne_nil (List.splitOnP_ne_nil isBlank text)
      rw [same, List.modifyHead_cons] at member
      rcases List.mem_cons.1 member with rfl | later
      · intro d inside
        rcases List.mem_cons.1 inside with rfl | behind
        · simpa using solid
        · exact ih (same ▸ List.mem_cons_self) d behind
      · exact ih (same ▸ List.mem_cons_of_mem first later)

theorem isWord_of_mem_tokens {line word : String} (member : word ∈ tokens line) : IsWord word := by
  obtain ⟨letters, inside, rfl⟩ := List.mem_map.1 member
  obtain ⟨piece, nonempty⟩ := List.mem_filter.1 inside
  refine ⟨by simpa using nonempty, ?_⟩
  rw [String.toList_ofList]
  exact solid_of_mem_splitOnP piece

theorem words_intercalate {pieces : List (List Char)} (nonempty : ∀ piece ∈ pieces, piece ≠ [])
    (solid : ∀ piece ∈ pieces, ∀ c ∈ piece, isBlank c = false) :
    words ([' '].intercalate pieces) = pieces := by
  have space : isBlank ' ' = true := by decide
  induction pieces with
  | nil => rfl
  | cons piece pieces ih =>
    have rest := ih (fun other member => nonempty other (by simp [member]))
      (fun other member => solid other (by simp [member]))
    have first := words_solid (nonempty piece (by simp)) (solid piece (by simp))
    cases pieces with
    | nil => rw [List.intercalate_singleton, first]
    | cons next pieces =>
      rw [List.intercalate_cons_cons, List.append_assoc, List.singleton_append,
        words_append_blank space, first, rest]
      rfl

theorem tokens_intercalate {items : List String} (solid : ∀ item ∈ items, IsWord item) :
    tokens (" ".intercalate items) = items := by
  have space : " ".toList = [' '] := rfl
  rw [tokens, String.toList_intercalate, space, words_intercalate]
  · simp [Function.comp_def]
  · intro piece member
    obtain ⟨item, inside, rfl⟩ := List.mem_map.1 member
    simpa using (solid item inside).1
  · intro piece member
    obtain ⟨item, inside, rfl⟩ := List.mem_map.1 member
    exact (solid item inside).2

theorem intercalate_eq_empty_iff {items : List String} (solid : ∀ item ∈ items, IsWord item) :
    " ".intercalate items = "" ↔ items = [] := by
  constructor
  · intro empty
    rw [← tokens_intercalate solid, empty]
    rfl
  · rintro rfl
    rfl

end UciProtocol.Text
