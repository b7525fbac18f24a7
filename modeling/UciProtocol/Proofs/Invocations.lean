import UciProtocol.Invocation
import UciProtocol.Proofs.Groups
import UciProtocol.Proofs.Words

/-! What a line is read as.

The first word decides whether a line is blank, unknown, an assignment or another command. Behind
another command the words are keyword groups, of which the last one of each keyword counts, so
that neither the blanks between the words nor earlier groups matter.
-/

set_option autoImplicit false

namespace UciProtocol

/-- The error that the same words give on another line. -/
def RequestError.onLine (line : String) : RequestError → RequestError
  | unknownCommand command _ => unknownCommand command line
  | error => error

section
variable {α β ε : Type} {result : Except ε α} {f : α → β}

theorem map_eq_error_iff {error : ε} : result.map f = .error error ↔ result = .error error := by
  cases result <;> simp [Except.map]

theorem map_eq_ok_iff {value : β} :
    result.map f = .ok value ↔ ∃ found, result = .ok found ∧ f found = value := by
  cases result <;> simp [Except.map]

end

namespace Command

theorem ofName?_name (command : Command) : ofName? command.name = some command := by
  cases command <;> rfl

theorem name_of_ofName? {word : String} {command : Command} (found : ofName? word = some command) :
    command.name = word := by
  simpa using List.find?_some found

theorem name_injective : Function.Injective name := by
  intro command other same
  have found : ofName? command.name = ofName? other.name := congrArg ofName? same
  rw [ofName?_name, ofName?_name] at found
  exact Option.some.inj found

theorem ofName?_eq_none {word : String} (unknown : ∀ command : Command, command.name ≠ word) :
    ofName? word = none := by
  cases found : ofName? word with
  | none => rfl
  | some command => exact absurd (name_of_ofName? found) (unknown command)

end Command

namespace Invocation

open Text

/-! ### Words behind a command -/

variable {command : Command}

def Intake.given (arguments : Arguments) (keyword : String) (given : List String) : Intake :=
  ⟨arguments.insert keyword (" ".intercalate given), some keyword⟩

section
variable {word keyword : String} {arguments : Arguments} {given : List String}

theorem Intake.take_keyword (keyed : word ∈ command.keywords) (intake : Intake) :
    intake.take command word = .ok (.given intake.arguments word []) := by
  rw [take, if_pos keyed]
  rfl

-- A keyword without words has the empty value, and no space comes behind it.
theorem Intake.take_other (other : word ∉ command.keywords) (solid : ∀ word ∈ given, IsWord word) :
    (Intake.given arguments keyword given).take command word =
      .ok (.given arguments keyword (given ++ [word])) := by
  have value : Arguments.value (arguments.insert keyword (" ".intercalate given)) keyword =
      " ".intercalate given := by
    rw [Arguments.value, Table.get?_insert, if_pos rfl, Option.getD_some]
  have longer : (if " ".intercalate given = "" then word
      else " ".intercalate given ++ " " ++ word) = " ".intercalate (given ++ [word]) := by
    by_cases empty : given = []
    · rw [empty]
      rfl
    · rw [if_neg (mt (intercalate_eq_empty_iff solid).1 empty),
        String.intercalate_append_of_ne_nil empty (List.cons_ne_nil _ _),
        String.intercalate_singleton]
  rw [take, if_neg other]
  dsimp only [Intake.given]
  rw [value, longer, Table.insert_insert]

/-- Behind a keyword no word is refused. The words up to the next keyword go to it, and the groups
behind them are taken in order. -/
theorem Intake.takeAll (arguments : Arguments) (keyword : String) (given words : List String)
    (solid : ∀ word ∈ given ++ words, IsWord word) :
    let split := Group.split (command.keywords.contains ·) words
    (words.foldlM (Intake.take command) (.given arguments keyword given)).map Intake.arguments =
      .ok (Arguments.insertAll (arguments.insert keyword (" ".intercalate (given ++ split.1)))
        split.2) := by
  induction words generalizing arguments keyword given with
  | nil =>
    dsimp only [Group.split]
    rw [List.append_nil]
    rfl
  | cons word words ih =>
    have front : ∀ word ∈ given, IsWord word :=
      fun other member => solid other (List.mem_append_left _ member)
    have back : ∀ word ∈ words, IsWord word :=
      fun other member => solid other (List.mem_append_right _ (List.mem_cons_of_mem _ member))
    dsimp only
    rw [List.foldlM_cons]
    by_cases keyed : word ∈ command.keywords
    · rw [Intake.take_keyword keyed, Group.split_keyword (by simpa using keyed), List.append_nil]
      exact ih _ _ [] back
    · rw [Intake.take_other keyed front, Group.split_other (by simpa using keyed)]
      dsimp only
      rw [List.append_cons] at solid
      rw [List.append_cons given word (Group.split _ words).1]
      exact ih _ _ _ solid

end

theorem ofTokens_stray {word : String} (stray : word ∉ command.keywords) (words : List String) :
    ofTokens command (word :: words) = .error (.unexpectedToken word command.name) := by
  rw [ofTokens, List.foldlM_cons, Intake.take, if_neg stray]
  rfl

theorem ofTokens_groups {words : List String} (solid : ∀ word ∈ words, IsWord word)
    (keyed : ∀ word ∈ words.head?, word ∈ command.keywords) :
    ofTokens command words =
      .ok ⟨command, .ofGroups (Group.split (command.keywords.contains ·) words).2⟩ := by
  cases words with
  | nil => rfl
  | cons word words =>
    have first : word ∈ command.keywords := keyed word rfl
    obtain ⟨intake, taken, arguments⟩ := map_eq_ok_iff.1 <|
      Intake.takeAll .empty word [] words fun other member =>
        solid other (List.mem_cons_of_mem _ member)
    rw [Group.split_keyword (by simpa using first), ofTokens, List.foldlM_cons,
      Intake.take_keyword first]
    refine map_eq_ok_iff.2 ⟨intake, taken, ?_⟩
    rw [arguments]
    rfl

/-! ### Lines by their first word -/

variable {line : String} {words : List String}

theorem ofLine_blank (blank : tokens line = []) : ofLine line = .ok none := by
  rw [ofLine, blank]

theorem ofLine_unknown {name : String} (first : tokens line = name :: words)
    (unknown : ∀ command : Command, command.name ≠ name) :
    ofLine line = .error (.unknownCommand name line) := by
  simp only [ofLine, first, Command.ofName?_eq_none unknown]

theorem ofLine_setOption (first : tokens line = Command.setOption.name :: words) :
    ofLine line = (Assignment.read (afterFirstWord line.toList)).map fun assignment =>
      some ⟨.setOption, assignment.arguments⟩ := by
  simp only [ofLine, first, Command.ofName?_name]

theorem ofLine_command (other : command ≠ .setOption)
    (first : tokens line = command.name :: words) :
    ofLine line = (ofTokens command words).map some := by
  simp only [ofLine, first, Command.ofName?_name]

theorem first_word_cases (line : String) :
    tokens line = [] ∨
      (∃ name words, tokens line = name :: words ∧ ∀ command : Command, command.name ≠ name) ∨
      ∃ command words, tokens line = Command.name command :: words := by
  cases same : tokens line with
  | nil => exact .inl rfl
  | cons name words =>
    by_cases known : ∃ command : Command, command.name = name
    · obtain ⟨command, rfl⟩ := known
      exact .inr (.inr ⟨command, words, rfl⟩)
    · exact .inr (.inl ⟨name, words, rfl, fun command is => known ⟨command, is⟩⟩)

theorem solid_of_tokens {name : String} (first : tokens line = name :: words) :
    ∀ word ∈ words, IsWord word :=
  fun _ member => isWord_of_mem_tokens (first ▸ List.mem_cons_of_mem _ member)

theorem ofLine_groups (other : command ≠ .setOption) (first : tokens line = command.name :: words)
    (keyed : ∀ word ∈ words.head?, word ∈ command.keywords) :
    ofLine line =
      .ok (some ⟨command, .ofGroups (Group.split (command.keywords.contains ·) words).2⟩) := by
  rw [ofLine_command other first, ofTokens_groups (solid_of_tokens first) keyed]
  rfl

/-! ### Outcomes -/

theorem ofLine_eq_none_iff : ofLine line = .ok none ↔ tokens line = [] := by
  constructor
  · intro none
    rcases first_word_cases line with
      blank | ⟨name, words, first, unknown⟩ | ⟨command, words, first⟩
    · exact blank
    · rw [ofLine_unknown first unknown] at none
      cases none
    · by_cases other : command = .setOption
      · subst other
        rw [ofLine_setOption first] at none
        obtain ⟨_, _, some⟩ := map_eq_ok_iff.1 none
        cases some
      · rw [ofLine_command other first] at none
        obtain ⟨_, _, some⟩ := map_eq_ok_iff.1 none
        cases some
  · exact ofLine_blank

theorem ofTokens_eq_error_iff (solid : ∀ word ∈ words, IsWord word) {error : RequestError} :
    ofTokens command words = .error error ↔
      ∃ word ∈ words.head?, word ∉ command.keywords ∧
        error = .unexpectedToken word command.name := by
  by_cases keyed : ∀ word ∈ words.head?, word ∈ command.keywords
  · rw [ofTokens_groups solid keyed]
    constructor
    · intro failed
      cases failed
    · rintro ⟨word, first, stray, _⟩
      exact absurd (keyed word first) stray
  · cases words with
    | nil => simp at keyed
    | cons word words =>
      have stray : word ∉ command.keywords := by simpa using keyed
      rw [ofTokens_stray stray]
      simp [stray, eq_comm]

theorem ofTokens_keyed (solid : ∀ word ∈ words, IsWord word) {invocation : Invocation}
    (read : ofTokens command words = .ok invocation) :
    invocation.command = command ∧ ∀ word ∈ words.head?, word ∈ command.keywords := by
  have keyed : ∀ word ∈ words.head?, word ∈ command.keywords := by
    intro word first
    by_cases own : word ∈ command.keywords
    · exact own
    · rw [(ofTokens_eq_error_iff solid).2 ⟨word, first, own, rfl⟩] at read
      cases read
  rw [ofTokens_groups solid keyed] at read
  cases read
  exact ⟨rfl, keyed⟩

theorem ofLine_first_word {invocation : Invocation}
    (read : ofLine line = .ok (some invocation)) :
    ∃ words, tokens line = invocation.command.name :: words ∧
      (invocation.command ≠ .setOption →
        ∀ word ∈ words.head?, word ∈ invocation.command.keywords) := by
  rcases first_word_cases line with blank | ⟨name, words, first, unknown⟩ | ⟨command, words, first⟩
  · rw [ofLine_blank blank] at read
    cases read
  · rw [ofLine_unknown first unknown] at read
    cases read
  · by_cases other : command = .setOption
    · subst other
      rw [ofLine_setOption first] at read
      obtain ⟨_, _, same⟩ := map_eq_ok_iff.1 read
      cases same
      exact ⟨words, first, fun apart => absurd rfl apart⟩
    · rw [ofLine_command other first] at read
      obtain ⟨found, made, same⟩ := map_eq_ok_iff.1 read
      cases same
      obtain ⟨rfl, keyed⟩ := ofTokens_keyed (solid_of_tokens first) made
      exact ⟨words, first, fun _ => keyed⟩

theorem read_ne_unknownCommand (text : List Char) (name line : String) :
    Assignment.read text ≠ .error (.unknownCommand name line) := by
  intro failed
  unfold Assignment.read Assignment.readValue at failed
  dsimp only at failed
  repeat' split at failed
  all_goals cases failed

theorem ofLine_eq_unknownCommand_iff {name text : String} :
    ofLine line = .error (.unknownCommand name text) ↔
      (tokens line).head? = some name ∧ text = line ∧
        ∀ command : Command, command.name ≠ name := by
  rcases first_word_cases line with blank | ⟨first, words, same, unknown⟩ | ⟨command, words, same⟩
  · rw [ofLine_blank blank, blank]
    simp
  · rw [ofLine_unknown same unknown, same]
    constructor
    · intro failed
      cases failed
      exact ⟨rfl, rfl, unknown⟩
    · rintro ⟨is, rfl, _⟩
      cases is
      rfl
  · constructor
    · intro failed
      by_cases other : command = .setOption
      · subst other
        rw [ofLine_setOption same, map_eq_error_iff] at failed
        exact absurd failed (read_ne_unknownCommand _ _ _)
      · rw [ofLine_command other same, map_eq_error_iff] at failed
        obtain ⟨_, _, _, stray⟩ := (ofTokens_eq_error_iff (solid_of_tokens same)).1 failed
        cases stray
    · rintro ⟨is, _, unknown⟩
      rw [same] at is
      cases is
      exact absurd rfl (unknown command)

-- Where the line itself does not count, only its words do.
theorem ofLine_of_tokens_eq {other : String} (same : tokens other = tokens line)
    (apart : (tokens line).head? ≠ some Command.setOption.name) :
    ofLine other = (ofLine line).mapError (·.onLine other) := by
  rcases first_word_cases line with blank | ⟨name, words, first, unknown⟩ | ⟨command, words, first⟩
  · rw [ofLine_blank blank, ofLine_blank (same.trans blank)]
    rfl
  · rw [ofLine_unknown first unknown, ofLine_unknown (same.trans first) unknown]
    rfl
  · have grouped : command ≠ .setOption := by
      rintro rfl
      exact apart (by rw [first]; rfl)
    rw [ofLine_command grouped first, ofLine_command grouped (same.trans first)]
    cases read : ofTokens command words with
    | ok invocation => rfl
    | error error =>
      obtain ⟨word, _, _, rfl⟩ := (ofTokens_eq_error_iff (solid_of_tokens first)).1 read
      rfl

/-! ### The groups that count -/

theorem get?_split_groups (words : List String) (keyword value : String) :
    (Arguments.ofGroups (Group.split (command.keywords.contains ·) words).2).get? keyword =
        some value ↔
      keyword ∈ command.keywords ∧
        ∃ given, Group.GivenLast command.keywords words keyword given ∧
          value = " ".intercalate given := by
  rw [Arguments.get?_ofGroups]
  by_cases keyed : keyword ∈ command.keywords
  · have joined : Group.value = (" ".intercalate ·) ∘ Group.words := rfl
    rw [joined, ← Option.map_map, Option.map_eq_some_iff]
    simp only [Group.last?_split keyed, keyed, true_and, eq_comm]
  · have none : Group.last? keyword (Group.split (command.keywords.contains ·) words).2 = none := by
      apply List.find?_eq_none.2
      intro group member is
      have own := Group.keyword_of_mem_split (List.mem_reverse.1 member)
      simp only [List.contains_iff_mem] at own
      simp only [decide_eq_true_eq] at is
      exact keyed (is ▸ own)
    rw [none]
    simp [keyed]

theorem contains_split_groups (words : List String) (keyword : String) :
    (Arguments.ofGroups (Group.split (command.keywords.contains ·) words).2).contains keyword ↔
      keyword ∈ command.keywords ∧ keyword ∈ words := by
  rw [Arguments.contains, Option.isSome_iff_exists]
  simp only [get?_split_groups]
  constructor
  · rintro ⟨value, keyed, given, last, _⟩
    exact ⟨keyed, Group.exists_givenLast_iff.1 ⟨given, last⟩⟩
  · rintro ⟨keyed, member⟩
    obtain ⟨given, last⟩ : ∃ given, Group.GivenLast command.keywords words keyword given :=
      Group.exists_givenLast_iff.2 member
    exact ⟨_, keyed, given, last, rfl⟩

-- The groups of a line that is made of groups are read as they are.
theorem ofLine_tokens {groups : List Group} (grouped : command ≠ .setOption)
    (sound : ∀ group ∈ groups, group.Sound command.keywords)
    (first : tokens line = command.name :: groups.flatMap Group.tokens) :
    ofLine line = .ok (some ⟨command, .ofGroups groups⟩) := by
  rw [ofLine_groups grouped first, Group.split_tokens sound]
  cases groups with
  | nil => simp
  | cons group groups =>
    intro word is
    cases is
    exact (sound group (by simp)).1

/-- How a line is read by its words. Of the groups of a keyword only the last counts, in whatever
order the groups come. -/
theorem ofLine_reads_words (line : String) :
    (ofLine line = .ok none ↔ tokens line = []) ∧
    (∀ name text, ofLine line = .error (.unknownCommand name text) ↔
      (tokens line).head? = some name ∧ text = line ∧
        ∀ command : Command, command.name ≠ name) ∧
    (∀ (command : Command) (words : List String), command ≠ .setOption →
      tokens line = command.name :: words →
        (∀ error, ofLine line = .error error ↔
          ∃ word ∈ words.head?, word ∉ command.keywords ∧
            error = .unexpectedToken word command.name) ∧
        ((∀ word ∈ words.head?, word ∈ command.keywords) →
          ∃ arguments, ofLine line = .ok (some ⟨command, arguments⟩) ∧
            (∀ keyword, arguments.contains keyword ↔
              keyword ∈ command.keywords ∧ keyword ∈ words) ∧
            ∀ keyword value, arguments.get? keyword = some value ↔
              keyword ∈ command.keywords ∧
                ∃ given, Group.GivenLast command.keywords words keyword given ∧
                  value = " ".intercalate given)) ∧
    (∀ other, tokens other = tokens line → (tokens line).head? ≠ some Command.setOption.name →
      ofLine other = (ofLine line).mapError (·.onLine other)) ∧
    ∀ (command : Command) (groups others : List Group), command ≠ .setOption →
      (∀ group ∈ groups ++ others, group.Sound command.keywords) →
      (∀ keyword, Group.last? keyword groups = Group.last? keyword others) →
      tokens line = command.name :: groups.flatMap Group.tokens →
      ∀ other, tokens other = command.name :: others.flatMap Group.tokens →
        ∃ first second, ofLine line = .ok (some ⟨command, first⟩) ∧
          ofLine other = .ok (some ⟨command, second⟩) ∧
          ∀ keyword, first.get? keyword = second.get? keyword := by
  refine ⟨ofLine_eq_none_iff, fun name text => ofLine_eq_unknownCommand_iff, ?_,
    fun other => ofLine_of_tokens_eq, ?_⟩
  · intro command words grouped first
    constructor
    · intro error
      rw [ofLine_command grouped first, map_eq_error_iff]
      exact ofTokens_eq_error_iff (solid_of_tokens first)
    · intro keyed
      exact ⟨_, ofLine_groups grouped first keyed, contains_split_groups words,
        get?_split_groups words⟩
  · intro command groups others grouped sound same first other second
    have left : ∀ group ∈ groups, group.Sound command.keywords :=
      fun group member => sound group (List.mem_append_left others member)
    have right : ∀ group ∈ others, group.Sound command.keywords :=
      fun group member => sound group (List.mem_append_right groups member)
    refine ⟨_, _, ofLine_tokens grouped left first, ofLine_tokens grouped right second, ?_⟩
    intro keyword
    rw [Arguments.get?_ofGroups, Arguments.get?_ofGroups, same keyword]

theorem ofLine_depth_twice :
    (∃ arguments, ofLine "go depth 5 searchmoves e2e4 d2d4 depth 7" = .ok (some ⟨.go, arguments⟩) ∧
      arguments.get? "depth" = some "7") ∧
    ∃ first second, ofLine "go depth 5 searchmoves e2e4 d2d4 depth 7" = .ok (some ⟨.go, first⟩) ∧
      ofLine " go\tdepth 7 searchmoves  e2e4 d2d4" = .ok (some ⟨.go, second⟩) ∧
      ∀ keyword, first.get? keyword = second.get? keyword := by
  have reads := ofLine_reads_words "go depth 5 searchmoves e2e4 d2d4 depth 7"
  constructor
  · obtain ⟨arguments, read, _, values⟩ :=
      (reads.2.2.1 .go ["depth", "5", "searchmoves", "e2e4", "d2d4", "depth", "7"] (by decide)
        (by decide)).2 (by decide)
    refine ⟨arguments, read, (values "depth" "7").2 ⟨by decide, ["7"], ?_, by decide⟩⟩
    exact ⟨["depth", "5", "searchmoves", "e2e4", "d2d4"], [], by decide⟩
  · refine reads.2.2.2.2 .go
      [⟨"depth", ["5"]⟩, ⟨"searchmoves", ["e2e4", "d2d4"]⟩, ⟨"depth", ["7"]⟩]
      [⟨"depth", ["7"]⟩, ⟨"searchmoves", ["e2e4", "d2d4"]⟩]
      (by decide) ?_ ?_ (by decide) " go\tdepth 7 searchmoves  e2e4 d2d4" (by decide)
    · unfold Group.Sound
      decide
    · intro keyword
      by_cases depth : "depth" = keyword
      · subst depth
        decide
      · simp [Group.last?, List.find?_cons, depth]

end Invocation

end UciProtocol
