import UciProtocol.Arguments
import UciProtocol.Proofs.Tables

/-! Words as keyword groups, and the group of each keyword that counts.

Cutting words into groups loses none of them and is undone by writing the groups out. Of the groups
of one keyword the last counts; it holds the words behind the last place of the keyword, up to the
next keyword.
-/

set_option autoImplicit false

namespace UciProtocol

namespace Group

/-- The words before the first keyword, and the groups in order. -/
def split (isKeyword : String → Bool) : List String → List String × List Group
  | [] => ([], [])
  | word :: rest =>
    let (lead, groups) := split isKeyword rest
    if isKeyword word then ([], ⟨word, lead⟩ :: groups) else (word :: lead, groups)

def value (group : Group) : String := " ".intercalate group.words

def last? (keyword : String) (groups : List Group) : Option Group :=
  groups.reverse.find? (·.keyword = keyword)

/-- A group with one of the keywords, and no keyword among its words. -/
def Sound (keywords : List String) (group : Group) : Prop :=
  group.keyword ∈ keywords ∧ ∀ word ∈ group.words, word ∉ keywords

/-- The words given to a keyword where it stands last: those behind it, up to the next keyword or
the end. -/
def GivenLast (keywords words : List String) (keyword : String) (given : List String) : Prop :=
  ∃ before after, words = before ++ keyword :: (given ++ after) ∧ keyword ∉ given ++ after ∧
    (∀ word ∈ given, word ∉ keywords) ∧ ∀ word ∈ after.head?, word ∈ keywords

/-! ### Cutting words into groups -/

section
variable {isKeyword : String → Bool}

theorem split_keyword {word : String} (keyed : isKeyword word = true) (words : List String) :
    split isKeyword (word :: words) =
      ([], ⟨word, (split isKeyword words).1⟩ :: (split isKeyword words).2) := by
  simp [split, keyed]

theorem split_other {word : String} (other : isKeyword word = false) (words : List String) :
    split isKeyword (word :: words) =
      (word :: (split isKeyword words).1, (split isKeyword words).2) := by
  simp [split, other]

-- The words before the first group are those before the first keyword.
theorem split_lead (words : List String) :
    (split isKeyword words).1 = words.takeWhile (!isKeyword ·) := by
  induction words with
  | nil => rfl
  | cons word words ih =>
    cases kind : isKeyword word with
    | true => rw [split_keyword kind, List.takeWhile_cons_of_neg (by simp [kind])]
    | false => rw [split_other kind, List.takeWhile_cons_of_pos (by simp [kind]), ih]

theorem split_others_append {front : List String} (others : ∀ word ∈ front, isKeyword word = false)
    (back : List String) :
    split isKeyword (front ++ back) =
      (front ++ (split isKeyword back).1, (split isKeyword back).2) := by
  induction front with
  | nil => rfl
  | cons word front ih =>
    have rest := ih fun other member => others other (by simp [member])
    rw [List.cons_append, split_other (others word (by simp)), rest]
    rfl

theorem keyword_of_mem_split {words : List String} {group : Group}
    (member : group ∈ (split isKeyword words).2) : isKeyword group.keyword = true := by
  induction words with
  | nil => cases member
  | cons word words ih =>
    cases kind : isKeyword word with
    | false =>
      rw [split_other kind] at member
      exact ih member
    | true =>
      rw [split_keyword kind] at member
      rcases List.mem_cons.1 member with rfl | later
      · exact kind
      · exact ih later

end

section
variable {keywords : List String}

-- Groups that are written out one behind the other are cut as they were.
theorem split_tokens {groups : List Group} (sound : ∀ group ∈ groups, group.Sound keywords) :
    split (keywords.contains ·) (groups.flatMap tokens) = ([], groups) := by
  induction groups with
  | nil => rfl
  | cons group groups ih =>
    obtain ⟨keyed, others⟩ := sound group (by simp)
    have rest := ih fun other member => sound other (by simp [member])
    have front : split (keywords.contains ·) (group.words ++ groups.flatMap tokens) = _ :=
      split_others_append (fun word member => by simpa using others word member) _
    rw [List.flatMap_cons, tokens, List.cons_append, split_keyword (by simpa using keyed), front,
      rest, List.append_nil]

/-! ### The group that counts -/

theorem last?_cons (keyword : String) (group : Group) (groups : List Group) :
    last? keyword (group :: groups) =
      (last? keyword groups).or (if group.keyword = keyword then some group else none) := by
  unfold last?
  rw [List.reverse_cons, List.find?_append, List.find?_singleton]
  simp only [decide_eq_true_eq]

theorem takeWhile_given {given after : List String} (others : ∀ word ∈ given, word ∉ keywords)
    (stop : ∀ word ∈ after.head?, word ∈ keywords) :
    (given ++ after).takeWhile (!keywords.contains ·) = given := by
  rw [List.takeWhile_append_of_pos (fun word member => by simpa using others word member)]
  cases after with
  | nil => rw [List.takeWhile_nil, List.append_nil]
  | cons word after =>
    have keyed : word ∈ keywords := stop word rfl
    rw [List.takeWhile_cons_of_neg (by simpa using keyed), List.append_nil]

theorem givenLast_cons {keyword word : String} {words given : List String} :
    GivenLast keywords (word :: words) keyword given ↔
      GivenLast keywords words keyword given ∨
        word = keyword ∧ keyword ∉ words ∧ given = words.takeWhile (!keywords.contains ·) := by
  constructor
  · rintro ⟨before, after, same, absent, others, stop⟩
    cases before with
    | nil =>
      obtain ⟨rfl, rfl⟩ := List.cons.inj same
      exact .inr ⟨rfl, absent, (takeWhile_given others stop).symm⟩
    | cons first before =>
      exact .inl ⟨before, after, (List.cons.inj same).2, absent, others, stop⟩
  · rintro (⟨before, after, rfl, absent, others, stop⟩ | ⟨rfl, absent, rfl⟩)
    · exact ⟨word :: before, after, rfl, absent, others, stop⟩
    · refine ⟨[], words.dropWhile (!keywords.contains ·), ?_, ?_, ?_, ?_⟩
      · rw [List.takeWhile_append_dropWhile, List.nil_append]
      · rwa [List.takeWhile_append_dropWhile]
      · intro other member
        simpa using List.all_eq_true.1 List.all_takeWhile other member
      · intro other member
        have first := List.head?_dropWhile_not (!keywords.contains ·) words
        rw [Option.mem_def.1 member] at first
        simpa using first

-- Words are given, though perhaps none, just to the keywords that occur.
theorem exists_givenLast_iff {keyword : String} {words : List String} :
    (∃ given, GivenLast keywords words keyword given) ↔ keyword ∈ words := by
  induction words with
  | nil =>
    constructor
    · rintro ⟨given, before, after, same, rest⟩
      cases before <;> cases same
    · intro member
      cases member
  | cons word words ih =>
    simp only [givenLast_cons, exists_or, ih, List.mem_cons]
    constructor
    · rintro (later | ⟨given, rfl, rest⟩)
      · exact .inr later
      · exact .inl rfl
    · intro member
      by_cases later : keyword ∈ words
      · exact .inl later
      · have here : word = keyword := (member.resolve_right later).symm
        exact .inr ⟨_, here, later, rfl⟩

-- The group that counts for a keyword holds the words given where the keyword stands last.
theorem last?_split {keyword : String} (keyed : keyword ∈ keywords) (words given : List String) :
    (last? keyword (split (keywords.contains ·) words).2).map Group.words = some given ↔
      GivenLast keywords words keyword given := by
  induction words generalizing given with
  | nil =>
    have none : ¬ GivenLast keywords [] keyword given := fun some =>
      List.not_mem_nil (exists_givenLast_iff.1 ⟨given, some⟩)
    simpa [split, last?] using none
  | cons word words ih =>
    cases kind : keywords.contains word with
    | false =>
      have different : word ≠ keyword := by
        rintro rfl
        simp [keyed] at kind
      rw [split_other kind, givenLast_cons]
      simpa only [different, false_and, or_false] using ih given
    | true =>
      -- The first group counts only if its keyword does not come again.
      rw [split_keyword kind, last?_cons, split_lead, givenLast_cons, ← ih]
      cases found : last? keyword (split (keywords.contains ·) words).2 with
      | some group =>
        have later : GivenLast keywords words keyword group.words :=
          (ih group.words).1 (by rw [found]; rfl)
        have present : keyword ∈ words := exists_givenLast_iff.1 ⟨group.words, later⟩
        simp [present]
      | none =>
        have absent : keyword ∉ words := by
          intro member
          obtain ⟨some, later⟩ := exists_givenLast_iff.2 member
          have := (ih some).2 later
          rw [found] at this
          cases this
        by_cases same : word = keyword
        · simp [same, absent, eq_comm]
        · simp [same]

end

end Group

namespace Arguments

def insertAll (arguments : Arguments) (groups : List Group) : Arguments :=
  groups.foldl (fun arguments group => arguments.insert group.keyword group.value) arguments

def ofGroups (groups : List Group) : Arguments := insertAll .empty groups

-- Of the groups of one keyword the last counts.
theorem get?_ofGroups (groups : List Group) (keyword : String) :
    (ofGroups groups).get? keyword = (Group.last? keyword groups).map Group.value := by
  -- What is there already counts for a keyword without a group.
  have onto : ∀ arguments : Arguments, (arguments.insertAll groups).get? keyword =
      ((Group.last? keyword groups).map Group.value).or (arguments.get? keyword) := by
    induction groups with
    | nil => intro arguments; rfl
    | cons group groups ih =>
      intro arguments
      rw [insertAll, List.foldl_cons, ← insertAll, ih, Table.get?_insert, Group.last?_cons]
      cases Group.last? keyword groups with
      | some later => rfl
      | none =>
        by_cases same : group.keyword = keyword
        · simp [same]
        · simp [same, Ne.symm same]
  have empty : (Table.empty : Arguments).get? keyword = none := rfl
  rw [ofGroups, onto, empty, Option.or_none]

end Arguments

end UciProtocol
