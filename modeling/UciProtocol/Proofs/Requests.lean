import Mathlib.Data.List.Nodup
import UciProtocol.Proofs.Invocations
import UciProtocol.Proofs.Words
import UciProtocol.Request.Record

/-! Lines that request something, and the groups they are written of.

The words given to a keyword on a line are words that its command takes. A line that is written of
groups of such words is read as these groups; where each keyword has at most one group, their order
does not matter.
-/

set_option autoImplicit false

namespace UciProtocol

open Text

def Command.Takes (command : Command) (word : String) : Prop :=
  IsWord word ∧ word ∉ command.keywords

instance (command : Command) (word : String) : Decidable (command.Takes word) :=
  inferInstanceAs (Decidable (_ ∧ _))

theorem Command.isWord_name (command : Command) : IsWord command.name := by
  cases command <;> decide

theorem Command.isWord_of_mem_keywords {command : Command} {keyword : String}
    (member : keyword ∈ command.keywords) : IsWord keyword := by
  have all : ∀ word ∈ command.keywords, IsWord word := by cases command <;> decide
  exact all keyword member

/-! ### Lines as requests -/

theorem Request.ofLine_eq_some {line : String} {request : Request}
    (valid : Request.ofLine line = .ok (some request)) :
    ∃ invocation, Invocation.ofLine line = .ok (some invocation) ∧
      Request.ofInvocation invocation = .ok request := by
  unfold Request.ofLine at valid
  cases read : Invocation.ofLine line with
  | error error => rw [read] at valid; cases valid
  | ok found =>
    cases found with
    | none => rw [read] at valid; cases valid
    | some invocation =>
      rw [read] at valid
      obtain ⟨_, made, same⟩ := map_eq_ok_iff.1 valid
      cases same
      exact ⟨invocation, rfl, made⟩

theorem Request.ofLine_of_ofInvocation {line : String} {invocation : Invocation} {request : Request}
    (read : Invocation.ofLine line = .ok (some invocation))
    (made : Request.ofInvocation invocation = .ok request) :
    Request.ofLine line = .ok (some request) := by
  rw [Request.ofLine, read]
  exact congrArg (Except.map some) made

theorem Request.command_of_ofInvocation {invocation : Invocation} {request : Request}
    (made : Request.ofInvocation invocation = .ok request) :
    request.command = invocation.command := by
  obtain ⟨command, arguments⟩ := invocation
  cases command with
  | setOption | position | go =>
    obtain ⟨_, _, rfl⟩ := map_eq_ok_iff.1 made
    rfl
  | uci | isReady | newGame | stop | ponderHit | quit | xyzzy =>
    cases made
    rfl

theorem Request.head?_tokens {line : String} {request : Request}
    (read : Request.ofLine line = .ok (some request)) :
    (tokens line).head? = some request.command.name := by
  obtain ⟨invocation, invoked, made⟩ := Request.ofLine_eq_some read
  obtain ⟨words, first, -⟩ := Invocation.ofLine_first_word invoked
  rw [first, Request.command_of_ofInvocation made]
  rfl

theorem Request.search_of_ofInvocation {invocation : Invocation} {search : Search}
    (made : Request.ofInvocation invocation = .ok (.go search)) :
    Search.ofArguments invocation.arguments = .ok search := by
  obtain ⟨command, arguments⟩ := invocation
  obtain rfl : Command.go = command := Request.command_of_ofInvocation made
  obtain ⟨_, read, same⟩ := map_eq_ok_iff.1 made
  cases same
  exact read

theorem Request.position_of_ofInvocation {invocation : Invocation} {position : Position}
    (made : Request.ofInvocation invocation = .ok (.position position)) :
    Position.ofArguments invocation.arguments = .ok position := by
  obtain ⟨command, arguments⟩ := invocation
  obtain rfl : Command.position = command := Request.command_of_ofInvocation made
  obtain ⟨_, read, same⟩ := map_eq_ok_iff.1 made
  cases same
  exact read

/-! ### The words of a value -/

theorem Group.GivenLast.subset {keywords words given : List String} {keyword : String}
    (last : Group.GivenLast keywords words keyword given) : given ⊆ words := by
  obtain ⟨before, after, rfl, _⟩ := last
  intro word member
  simp [member]

theorem Invocation.value_words {line keyword value : String} {invocation : Invocation}
    (read : Invocation.ofLine line = .ok (some invocation))
    (grouped : invocation.command ≠ .setOption)
    (stated : invocation.arguments.get? keyword = some value) :
    ∃ words, value = " ".intercalate words ∧ ∀ word ∈ words, invocation.command.Takes word := by
  obtain ⟨words, first, keyed⟩ := Invocation.ofLine_first_word read
  have groups := Invocation.ofLine_groups grouped first (keyed grouped)
  rw [read] at groups
  have same := congrArg Invocation.arguments (Option.some.inj (Except.ok.inj groups))
  rw [same] at stated
  obtain ⟨_, given, last, rfl⟩ := (Invocation.get?_split_groups words keyword value).1 stated
  refine ⟨given, rfl, fun word member => ⟨?_, ?_⟩⟩
  · have present : word ∈ tokens line := by
      rw [first]
      exact List.mem_cons_of_mem _ (last.subset member)
    exact isWord_of_mem_tokens present
  · obtain ⟨_, _, _, _, others, _⟩ := last
    exact others word member

theorem Invocation.takes_of_mem_value {line keyword word : String} {invocation : Invocation}
    (read : Invocation.ofLine line = .ok (some invocation))
    (grouped : invocation.command ≠ .setOption)
    (member : word ∈ tokens (invocation.arguments.value keyword)) :
    invocation.command.Takes word := by
  rw [Arguments.value] at member
  cases stated : invocation.arguments.get? keyword with
  | none =>
    rw [stated] at member
    cases member
  | some value =>
    obtain ⟨words, rfl, takes⟩ := Invocation.value_words read grouped stated
    rw [stated, Option.getD_some, tokens_intercalate fun word given => (takes word given).1]
      at member
    exact takes word member

/-! ### Lines written of groups -/

def Group.Written (command : Command) (group : Group) : Prop :=
  group.keyword ∈ command.keywords ∧ ∀ word ∈ group.words, command.Takes word

theorem Group.Written.sound {command : Command} {group : Group} (written : group.Written command) :
    group.Sound command.keywords :=
  ⟨written.1, fun word member => (written.2 word member).2⟩

section
variable {command : Command} {groups : List Group}
  (written : ∀ group ∈ groups, group.Written command)
include written

theorem Request.tokens_line :
    tokens (Request.line command groups) = command.name :: groups.flatMap Group.tokens := by
  apply tokens_intercalate
  intro word member
  rcases List.mem_cons.1 member with rfl | later
  · exact command.isWord_name
  · obtain ⟨group, inside, own⟩ := List.mem_flatMap.1 later
    rcases List.mem_cons.1 own with rfl | given
    · exact Command.isWord_of_mem_keywords (written group inside).1
    · exact ((written group inside).2 word given).1

theorem Invocation.ofLine_line (grouped : command ≠ .setOption) :
    Invocation.ofLine (Request.line command groups) =
      .ok (some ⟨command, .ofGroups groups⟩) :=
  Invocation.ofLine_tokens grouped (fun group member => (written group member).sound)
    (Request.tokens_line written)

end

section
variable {groups stated : List Group} (same : groups.Perm stated)
include same

theorem Arguments.get?_ofGroups_of_mem {group : Group}
    (distinct : (stated.map Group.keyword).Nodup) (member : group ∈ stated) :
    (Arguments.ofGroups groups).get? group.keyword = some group.value := by
  rw [Arguments.get?_ofGroups]
  cases last : Group.last? group.keyword groups with
  | none =>
    have absent := List.find?_eq_none.1 last group (List.mem_reverse.2 (same.mem_iff.2 member))
    simp at absent
  | some other =>
    have present := same.mem_iff.1 (List.mem_reverse.1 (List.mem_of_find?_eq_some last))
    have own : other.keyword = group.keyword := by simpa using List.find?_some last
    rw [List.inj_on_of_nodup_map distinct present member own]
    rfl

theorem Arguments.get?_ofGroups_of_absent {keyword : String}
    (absent : ∀ group ∈ stated, group.keyword ≠ keyword) :
    (Arguments.ofGroups groups).get? keyword = none := by
  have none : Group.last? keyword groups = none := by
    apply List.find?_eq_none.2
    intro group member
    simpa using absent group (same.mem_iff.1 (List.mem_reverse.1 member))
  rw [Arguments.get?_ofGroups, none]
  rfl

end

end UciProtocol
