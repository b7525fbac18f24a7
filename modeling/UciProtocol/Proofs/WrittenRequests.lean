import UciProtocol.Proofs.Searches

/-! Requests that are written on a line and read back.

A search or a position that is read from a line is well-formed: what it holds are words that its
keywords take. Every well-formed one can be written, with one group for each part that is given, in
whatever order, and is what the line is read as.
-/

set_option autoImplicit false

namespace UciProtocol

open Text

namespace Position

/-! ### Positions in Forsyth-Edwards notation -/

def pieces (text : String) : List String := (text.toList.splitOn ' ').map String.ofList

theorem intercalate_pieces (text : String) : " ".intercalate (pieces text) = text := by
  apply String.toList_injective
  have space : " ".toList = [' '] := rfl
  have letters : String.toList ∘ String.ofList = id := funext fun _ => String.toList_ofList
  rw [pieces, String.toList_intercalate, space, List.map_map, letters, List.map_id,
    List.intercalate_splitOn]

theorem pieces_ne_nil (text : String) : pieces text ≠ [] := by
  simp [pieces]

theorem pieces_intercalate {items : List String} (nonempty : items ≠ [])
    (solid : ∀ item ∈ items, IsWord item) : pieces (" ".intercalate items) = items := by
  have space : " ".toList = [' '] := rfl
  have letters : String.ofList ∘ String.toList = id := funext fun _ => String.ofList_toList
  have apart : ∀ piece ∈ items.map String.toList, ' ' ∉ piece := by
    intro piece member inside
    obtain ⟨item, given, rfl⟩ := List.mem_map.1 member
    have blank := (solid item given).2 ' ' inside
    exact absurd blank (by decide)
  rw [pieces, String.toList_intercalate, space, List.splitOn_intercalate ' ' apart (by simpa),
    List.map_map, letters, List.map_id]

/-! ### Arguments -/

variable {position : Position} {arguments : Arguments}

theorem ofArguments_startPosition {ignored : String} (absent : arguments.get? "fen" = none)
    (given : arguments.get? "startpos" = some ignored) :
    ofArguments arguments = .ok ⟨.startPosition, tokens (arguments.value "moves")⟩ := by
  simp [ofArguments, Arguments.contains, Arguments.value, absent, given]

theorem ofArguments_fen {text : String} (given : arguments.get? "fen" = some text)
    (nonempty : text ≠ "") (absent : arguments.get? "startpos" = none) :
    ofArguments arguments = .ok ⟨.fen text, tokens (arguments.value "moves")⟩ := by
  simp [ofArguments, Arguments.contains, Arguments.value, absent, given, nonempty]

theorem of_ofArguments_eq_ok (read : ofArguments arguments = .ok position) :
    position.moves = tokens (arguments.value "moves") ∧
      ∀ text, position.base = .fen text → text ≠ "" ∧ arguments.get? "fen" = some text := by
  unfold ofArguments at read
  split at read
  · cases read
  · cases read
    refine ⟨rfl, ?_⟩
    intro text based
    dsimp only at based
    split at based
    · cases based
    next nonempty =>
      cases based
      refine ⟨nonempty, ?_⟩
      unfold Arguments.value at nonempty ⊢
      cases stated : arguments.get? "fen" with
      | none => simp [stated] at nonempty
      | some text => rfl

/-! ### Groups -/

/-- A base position that can be written: a text of words with single spaces between them, none of
them a keyword. -/
def Base.WellFormed : Base → Prop
  | .startPosition => True
  | .fen text => text ≠ "" ∧ ∀ piece ∈ pieces text, Command.position.Takes piece

def WellFormed (position : Position) : Prop :=
  position.base.WellFormed ∧ ∀ word ∈ position.moves, Command.position.Takes word

def Base.group : Base → Group
  | .startPosition => ⟨"startpos", []⟩
  | .fen text => ⟨"fen", pieces text⟩

theorem fen_tokens (text : String) :
    " ".intercalate (Base.fen text).group.tokens = "fen " ++ text := by
  rw [Base.group, Group.tokens, String.intercalate_cons_of_ne_nil (pieces_ne_nil text),
    intercalate_pieces]
  rfl

theorem groups_eq (position : Position) :
    position.groups = position.base.group ::
      if position.moves = [] then [] else [⟨"moves", position.moves⟩] := by
  obtain ⟨base, moves⟩ := position
  cases base <;> rfl

theorem mem_groups {group : Group} :
    group ∈ position.groups ↔
      group = position.base.group ∨ position.moves ≠ [] ∧ group = ⟨"moves", position.moves⟩ := by
  rw [groups_eq, List.mem_cons, List.mem_ite_nil_left, List.mem_singleton]

theorem groups_distinct (position : Position) : (position.groups.map Group.keyword).Nodup := by
  rw [groups_eq]
  cases position.base <;> split <;> simp [Base.group]

theorem groups_written (formed : position.WellFormed) :
    ∀ group ∈ position.groups, group.Written .position := by
  obtain ⟨base, moves⟩ := position
  obtain ⟨based, moved⟩ := formed
  intro group member
  rcases mem_groups.1 member with rfl | ⟨_, rfl⟩
  · cases base with
    | startPosition =>
      have keyed : "startpos" ∈ Command.position.keywords := by decide
      exact ⟨keyed, by simp [Base.group]⟩
    | fen text =>
      have keyed : "fen" ∈ Command.position.keywords := by decide
      exact ⟨keyed, based.2⟩
  · have keyed : "moves" ∈ Command.position.keywords := by decide
    exact ⟨keyed, moved⟩

section
variable {groups : List Group} (same : groups.Perm position.groups)
include same

theorem get?_base {keyword : String} (other : keyword ≠ "moves") :
    (Arguments.ofGroups groups).get? keyword =
      if keyword = position.base.group.keyword then some position.base.group.value else none := by
  split
  next own =>
    rw [own]
    exact Arguments.get?_ofGroups_of_mem same position.groups_distinct (mem_groups.2 (.inl rfl))
  next apart =>
    apply Arguments.get?_ofGroups_of_absent same
    intro group member
    rcases mem_groups.1 member with rfl | ⟨_, rfl⟩
    · exact Ne.symm apart
    · exact other.symm

theorem value_moves :
    (Arguments.ofGroups groups).value "moves" = " ".intercalate position.moves := by
  by_cases empty : position.moves = []
  · have none : (Arguments.ofGroups groups).get? "moves" = none := by
      apply Arguments.get?_ofGroups_of_absent same
      intro group member
      rcases mem_groups.1 member with rfl | ⟨given, _⟩
      · cases position.base <;> simp [Base.group]
      · exact absurd empty given
    rw [Arguments.value, none, empty]
    rfl
  · have stated : ⟨"moves", position.moves⟩ ∈ position.groups := mem_groups.2 (.inr ⟨empty, rfl⟩)
    rw [Arguments.value, Arguments.get?_ofGroups_of_mem same position.groups_distinct stated]
    rfl

theorem ofArguments_ofGroups (formed : position.WellFormed) :
    ofArguments (.ofGroups groups) = .ok position := by
  have fen := get?_base same (show "fen" ≠ "moves" by decide)
  have startpos := get?_base same (show "startpos" ≠ "moves" by decide)
  have moves := value_moves same
  obtain ⟨base, listed⟩ := position
  obtain ⟨based, moved⟩ := formed
  have words := tokens_intercalate fun word member => (moved word member).1
  cases base with
  | startPosition =>
    rw [ofArguments_startPosition fen startpos, moves, words]
  | fen text =>
    have whole : (Base.fen text).group.value = text := intercalate_pieces text
    rw [ofArguments_fen (fen.trans (congrArg some whole)) based.1 startpos, moves, words]

end

end Position

namespace Request

/-! ### Lines -/

theorem wellFormed_of_go {line : String} {search : Search}
    (read : ofLine line = .ok (some (.go search))) : search.WellFormed := by
  obtain ⟨invocation, invoked, made⟩ := ofLine_eq_some read
  have command : Command.go = invocation.command := command_of_ofInvocation made
  obtain ⟨_, _, _, moves⟩ := Search.ofArguments_eq_ok_iff.1 (search_of_ofInvocation made)
  have grouped : invocation.command ≠ .setOption := by simp [← command]
  intro word member
  rw [moves] at member
  rw [command]
  exact Invocation.takes_of_mem_value invoked grouped member

theorem wellFormed_of_position {line : String} {position : Position}
    (read : ofLine line = .ok (some (.position position))) : position.WellFormed := by
  obtain ⟨invocation, invoked, made⟩ := ofLine_eq_some read
  have command : Command.position = invocation.command := command_of_ofInvocation made
  obtain ⟨moves, fen⟩ := Position.of_ofArguments_eq_ok (position_of_ofInvocation made)
  have grouped : invocation.command ≠ .setOption := by simp [← command]
  constructor
  · cases based : position.base with
    | startPosition => trivial
    | fen text =>
      obtain ⟨nonempty, stated⟩ := fen text based
      obtain ⟨words, rfl, takes⟩ := Invocation.value_words invoked grouped stated
      rw [← command] at takes
      -- Without words the text would be empty, and cutting it would give an empty piece.
      have some : words ≠ [] := by
        rintro rfl
        exact nonempty rfl
      refine ⟨nonempty, ?_⟩
      rw [Position.pieces_intercalate some fun word given => (takes word given).1]
      exact takes
  · intro word member
    rw [moves] at member
    rw [command]
    exact Invocation.takes_of_mem_value invoked grouped member

theorem ofLine_go {search : Search} (formed : search.WellFormed) {groups : List Group}
    (same : groups.Perm search.groups) :
    ofLine (line .go groups) = .ok (some (.go search)) := by
  have written : ∀ group ∈ groups, group.Written .go :=
    fun group member => Search.groups_written formed group (same.mem_iff.1 member)
  apply ofLine_of_ofInvocation (Invocation.ofLine_line written (by decide))
  exact congrArg (Except.map go) (Search.ofArguments_ofGroups same formed)

theorem ofLine_position {position : Position} (formed : position.WellFormed) {groups : List Group}
    (same : groups.Perm position.groups) :
    ofLine (line .position groups) = .ok (some (.position position)) := by
  have written : ∀ group ∈ groups, group.Written .position :=
    fun group member => Position.groups_written formed group (same.mem_iff.1 member)
  apply ofLine_of_ofInvocation (Invocation.ofLine_line written (by decide))
  exact congrArg (Except.map Request.position) (Position.ofArguments_ofGroups same formed)

/-- What is read from a line is well-formed, and what is well-formed is read from each line that
states it: the name of the command and one group for each part that is given, in any order. -/
theorem reads_what_is_written :
    (∀ line search, ofLine line = .ok (some (.go search)) → search.WellFormed) ∧
    (∀ line position, ofLine line = .ok (some (.position position)) → position.WellFormed) ∧
    (∀ (search : Search) (groups : List Group), search.WellFormed → groups.Perm search.groups →
      ofLine (line .go groups) = .ok (some (.go search))) ∧
    (∀ (position : Position) (groups : List Group), position.WellFormed →
      groups.Perm position.groups →
        ofLine (line .position groups) = .ok (some (.position position))) ∧
    ∀ text, " ".intercalate (Position.Base.fen text).group.tokens = "fen " ++ text :=
  ⟨fun _ _ => wellFormed_of_go, fun _ _ => wellFormed_of_position,
    fun _ _ formed => ofLine_go formed, fun _ _ formed => ofLine_position formed,
    Position.fen_tokens⟩

theorem reads_least_wtime :
    ofLine "go searchmoves e2e4 fen nodes 2147483647 infinite wtime -2147483648" =
      .ok (some (.go ⟨true, false, ["e2e4", "fen"],
        { wtime := some Int32.minValue, nodes := some Int32.maxValue }⟩)) ∧
    ofLine "position moves e2e4 go fen 8/8 w - -" =
      .ok (some (.position ⟨.fen "8/8 w - -", ["e2e4", "go"]⟩)) ∧
    Position.WellFormed ⟨.fen "8/8 w - -", ["e2e4", "go"]⟩ := by
  obtain ⟨_, formed, search, position, _⟩ := reads_what_is_written
  have first := search
    ⟨true, false, ["e2e4", "fen"],
      { wtime := some Int32.minValue, nodes := some Int32.maxValue }⟩
    [⟨"searchmoves", ["e2e4", "fen"]⟩, ⟨"nodes", ["2147483647"]⟩, ⟨"infinite", []⟩,
      ⟨"wtime", ["-2147483648"]⟩] (by decide) (by decide)
  have second := position ⟨.fen "8/8 w - -", ["e2e4", "go"]⟩
    [⟨"moves", ["e2e4", "go"]⟩, ⟨"fen", ["8/8", "w", "-", "-"]⟩]
    ⟨⟨by decide, by decide⟩, by decide⟩ (by decide)
  exact ⟨first, second, formed _ _ second⟩

end Request

end UciProtocol
