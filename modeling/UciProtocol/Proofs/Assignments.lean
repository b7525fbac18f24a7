import UciProtocol.Proofs.Invocations
import UciProtocol.Proofs.Keywords
import UciProtocol.Proofs.Words
import UciProtocol.Request

/-! The grammar of assignments.

An assignment is told apart from faulty text by where `name`, `value` and `context` stand, with no
mention of how they are searched for. Each text has exactly one reading, so the order in which the
faults count is part of the grammar.
-/

set_option autoImplicit false

namespace UciProtocol.Assignment

open Text

/-- A text that begins with the word `name`, and what follows it. -/
def Named (text behind : List Char) : Prop :=
  ∃ c rest, trim text = "name".toList ++ c :: rest ∧ isBlank c = true ∧ behind = trim rest

/-- What stands before and behind the first `value` after the word `name`. -/
def Opened (text name rest : List Char) : Prop :=
  ∃ behind, Named text behind ∧ StandsFirst "value".toList behind name rest

inductive Reading (text : List Char) : Except RequestError Assignment → Prop where
  | expectedName (unnamed : ∀ behind, ¬ Named text behind) :
      Reading text (.error .expectedName)
  | missingValue {behind : List Char} (named : Named text behind)
      (absent : ∀ name rest, ¬ StandsApart "value".toList behind name rest) :
      Reading text (.error .missingValue)
  | emptyName {name rest : List Char} (opened : Opened text name rest) (empty : trim name = []) :
      Reading text (.error .emptyOptionName)
  | emptyContext {name rest value context : List Char} (opened : Opened text name rest)
      (named : trim name ≠ [])
      (last : StandsLast "context".toList (trim rest) value context) (empty : trim context = []) :
      Reading text (.error (.emptyContext (String.ofList (trim name))))
  | emptyInContext {name rest value context : List Char} (opened : Opened text name rest)
      (named : trim name ≠ [])
      (last : StandsLast "context".toList (trim rest) value context)
      (placed : trim context ≠ []) (empty : trim value = []) :
      Reading text (.error .emptyOptionValue)
  | inContext {name rest value context : List Char} (opened : Opened text name rest)
      (named : trim name ≠ [])
      (last : StandsLast "context".toList (trim rest) value context)
      (placed : trim context ≠ []) (valued : trim value ≠ []) :
      Reading text (.ok ⟨String.ofList (trim name), String.ofList (trim value),
        String.ofList (trim context)⟩)
  | emptyEverywhere {name rest : List Char} (opened : Opened text name rest)
      (named : trim name ≠ [])
      (absent : ∀ value context, ¬ StandsApart "context".toList (trim rest) value context)
      (empty : trim rest = []) :
      Reading text (.error .emptyOptionValue)
  | everywhere {name rest : List Char} (opened : Opened text name rest) (named : trim name ≠ [])
      (absent : ∀ value context, ¬ StandsApart "context".toList (trim rest) value context)
      (valued : trim rest ≠ []) :
      Reading text (.ok ⟨String.ofList (trim name), String.ofList (trim rest), ""⟩)

/-! ### The leading word -/

theorem afterName?_eq_some_iff {text rest : List Char} :
    afterName? text = some rest ↔
      ∃ c back, text = "name".toList ++ c :: back ∧ isBlank c = true ∧ rest = c :: back := by
  have spelled : "name".toList = ['n', 'a', 'm', 'e'] := rfl
  rw [spelled]
  constructor
  · intro found
    unfold afterName? at found
    split at found
    next c back =>
      split at found
      next blank =>
        cases found
        exact ⟨c, back, rfl, blank, rfl⟩
      next => cases found
    next => cases found
  · rintro ⟨c, back, rfl, blank, rfl⟩
    exact if_pos blank

theorem named_iff {text behind : List Char} :
    Named text behind ↔ ∃ rest, afterName? (trim text) = some rest ∧ behind = trim rest := by
  simp only [afterName?_eq_some_iff]
  constructor
  · rintro ⟨c, rest, begins, blank, rfl⟩
    exact ⟨c :: rest, ⟨c, rest, begins, blank, rfl⟩, (trim_cons_blank blank rest).symm⟩
  · rintro ⟨_, ⟨c, rest, begins, blank, rfl⟩, rfl⟩
    exact ⟨c, rest, begins, blank, trim_cons_blank blank rest⟩

/-! ### Reading step by step -/

variable {text behind : List Char}

theorem read_unnamed (unnamed : ∀ behind, ¬ Named text behind) :
    read text = .error .expectedName := by
  have none : afterName? (trim text) = none := by
    cases found : afterName? (trim text) with
    | none => rfl
    | some rest => exact absurd (named_iff.2 ⟨rest, found, rfl⟩) (unnamed _)
  rw [read, none]

theorem value_nonempty : "value".toList ≠ [] := by decide

theorem value_solid : ∀ c ∈ "value".toList, isSeparator c = false := by simp [isSeparator]

theorem context_nonempty : "context".toList ≠ [] := by decide

theorem context_solid : ∀ c ∈ "context".toList, isSeparator c = false := by simp [isSeparator]

theorem read_named (named : Named text behind) :
    read text =
      match firstBounded? "value".toList behind with
      | none => .error .missingValue
      | some place =>
        if trim place.before = [] then .error .emptyOptionName
        else readValue (trim place.before) (trim place.after) := by
  obtain ⟨rest, found, rfl⟩ := named_iff.1 named
  unfold read
  split
  next none =>
    rw [found] at none
    cases none
  next other some =>
    rw [found] at some
    cases some
    rfl

theorem read_missingValue (named : Named text behind)
    (absent : ∀ name rest, ¬ StandsApart "value".toList behind name rest) :
    read text = .error .missingValue := by
  rw [read_named named, (firstBounded?_eq_none_iff value_nonempty value_solid).2 absent]

theorem read_opened {name rest : List Char} (opened : Opened text name rest) :
    read text =
      if trim name = [] then .error .emptyOptionName else readValue (trim name) (trim rest) := by
  obtain ⟨behind, named, first⟩ := opened
  rw [read_named named, first.found value_nonempty value_solid]
  simp only [Occurrence.before, List.reverse_reverse]

theorem readValue_last {name value context : List Char}
    (last : StandsLast "context".toList text value context) :
    readValue name text =
      if trim context = [] then .error (.emptyContext (String.ofList name))
      else if trim value = [] then .error .emptyOptionValue
      else .ok ⟨String.ofList name, String.ofList (trim value), String.ofList (trim context)⟩ := by
  rw [readValue, last.found context_nonempty context_solid]
  simp only [Occurrence.before, List.reverse_reverse]

theorem readValue_absent (name : List Char)
    (absent : ∀ value context, ¬ StandsApart "context".toList text value context) :
    readValue name text =
      if text = [] then .error .emptyOptionValue
      else .ok ⟨String.ofList name, String.ofList text, ""⟩ := by
  rw [readValue, (lastBounded?_zero_eq_none_iff context_nonempty context_solid).2 absent]

theorem Reading.eq_read {result : Except RequestError Assignment} (reading : Reading text result) :
    read text = result := by
  cases reading with
  | expectedName unnamed => exact read_unnamed unnamed
  | missingValue named absent => exact read_missingValue named absent
  | emptyName opened empty => rw [read_opened opened, if_pos empty]
  | emptyContext opened named last empty =>
    rw [read_opened opened, if_neg named, readValue_last last, if_pos empty]
  | emptyInContext opened named last placed empty =>
    rw [read_opened opened, if_neg named, readValue_last last, if_neg placed, if_pos empty]
  | inContext opened named last placed valued =>
    rw [read_opened opened, if_neg named, readValue_last last, if_neg placed, if_neg valued]
  | emptyEverywhere opened named absent empty =>
    rw [read_opened opened, if_neg named, readValue_absent _ absent, if_pos empty]
  | everywhere opened named absent valued =>
    rw [read_opened opened, if_neg named, readValue_absent _ absent, if_neg valued]

-- Every text has a reading.
theorem exists_reading (text : List Char) : ∃ result, Reading text result := by
  by_cases unnamed : ∀ behind, ¬ Named text behind
  · exact ⟨_, .expectedName unnamed⟩
  obtain ⟨behind, named⟩ : ∃ behind, Named text behind := by simpa using unnamed
  cases value_place : firstBounded? "value".toList behind with
  | none =>
    have absent := (firstBounded?_eq_none_iff value_nonempty value_solid).1 value_place
    exact ⟨_, .missingValue named absent⟩
  | some place =>
    have first := (firstBounded?_eq_some_iff value_nonempty value_solid).1 value_place
    have opened : Opened text place.before place.after := ⟨behind, named, first⟩
    by_cases empty : trim place.before = []
    · exact ⟨_, .emptyName opened empty⟩
    cases context_place : lastBounded? "context".toList (trim place.after) 0 with
    | none =>
      have absent := (lastBounded?_zero_eq_none_iff context_nonempty context_solid).1 context_place
      by_cases valued : trim place.after = []
      · exact ⟨_, .emptyEverywhere opened empty absent valued⟩
      · exact ⟨_, .everywhere opened empty absent valued⟩
    | some later =>
      have last := (lastBounded?_zero_eq_some_iff context_nonempty context_solid).1 context_place
      by_cases placed : trim later.after = []
      · exact ⟨_, .emptyContext opened empty last placed⟩
      by_cases valued : trim later.before = []
      · exact ⟨_, .emptyInContext opened empty last placed valued⟩
      · exact ⟨_, .inContext opened empty last placed valued⟩

theorem read_eq_iff_reading {result : Except RequestError Assignment} :
    read text = result ↔ Reading text result := by
  constructor
  · rintro rfl
    obtain ⟨result, reading⟩ := exists_reading text
    rwa [reading.eq_read]
  · exact Reading.eq_read

/-! ### The arguments of an assignment -/

theorem get?_arguments (assignment : Assignment) (keyword : String) :
    assignment.arguments.get? keyword =
      if keyword = "name" then some assignment.name
      else if keyword = "value" then some assignment.value
      else if keyword = "context" ∧ assignment.context ≠ "" then some assignment.context
      else none := by
  have empty : (Table.empty : Arguments).get? keyword = none := rfl
  by_cases everywhere : assignment.context = ""
  · rw [arguments, if_pos everywhere]
    simp only [Table.get?_insert, everywhere, empty]
    grind
  · rw [arguments, if_neg everywhere]
    simp only [Table.get?_insert, empty]
    grind

theorem ofArguments_arguments {assignment : Assignment} (named : assignment.name ≠ "")
    (valued : assignment.value ≠ "") : ofArguments assignment.arguments = .ok assignment := by
  have context : assignment.arguments.value "context" = assignment.context := by
    rw [Arguments.value, get?_arguments]
    by_cases everywhere : assignment.context = ""
    · simp [everywhere]
    · simp [everywhere]
  have name : assignment.arguments.value "name" = assignment.name := by
    rw [Arguments.value, get?_arguments]
    rfl
  have value : assignment.arguments.value "value" = assignment.value := by
    rw [Arguments.value, get?_arguments]
    rfl
  simp only [ofArguments, name, value, context, named, valued, if_false]

theorem ofList_ne_empty {text : List Char} (nonempty : text ≠ []) : String.ofList text ≠ "" := by
  simpa using nonempty

theorem nonempty_of_read {assignment : Assignment} (accepted : read text = .ok assignment) :
    assignment.name ≠ "" ∧ assignment.value ≠ "" := by
  cases read_eq_iff_reading.1 accepted with
  | inContext opened named last placed valued =>
    exact ⟨ofList_ne_empty named, ofList_ne_empty valued⟩
  | everywhere opened named absent valued =>
    exact ⟨ofList_ne_empty named, ofList_ne_empty valued⟩

/-! ### Lines -/

-- A line that begins with `setoption` gives what the text behind that word is read as.
theorem ofLine_of_setOption {line : String} {words : List String}
    (first : tokens line = Command.setOption.name :: words) :
    Request.ofLine line =
      (read (afterFirstWord line.toList)).map fun assignment => some (.setOption assignment) := by
  rw [Request.ofLine, Invocation.ofLine_setOption first]
  cases accepted : read (afterFirstWord line.toList) with
  | error error => rfl
  | ok assignment =>
    obtain ⟨named, valued⟩ := nonempty_of_read accepted
    have valid := ofArguments_arguments named valued
    simp only [Except.map, Except.bind, Request.ofInvocation, valid]

/-- Assignments are read by their grammar, as the arguments of `setoption` and as its lines. -/
theorem reads_grammar :
    (∀ text result, read text = result ↔ Reading text result) ∧
    (∀ (assignment : Assignment) keyword, assignment.arguments.get? keyword =
      if keyword = "name" then some assignment.name
      else if keyword = "value" then some assignment.value
      else if keyword = "context" ∧ assignment.context ≠ "" then some assignment.context
      else none) ∧
    ∀ (line : String) (words : List String), tokens line = Command.setOption.name :: words →
      (∃ lead, line.toList = lead ++ Command.setOption.name.toList ++ afterFirstWord line.toList ∧
        (∀ c ∈ lead, isBlank c = true) ∧
        ∀ c ∈ (afterFirstWord line.toList).head?, isBlank c = true) ∧
      Invocation.ofLine line = (read (afterFirstWord line.toList)).map
        (fun assignment => some ⟨.setOption, assignment.arguments⟩) ∧
      Request.ofLine line = (read (afterFirstWord line.toList)).map
        (fun assignment => some (.setOption assignment)) :=
  ⟨fun _ _ => read_eq_iff_reading, get?_arguments, fun _ _ first =>
    ⟨tokens_eq_cons first, Invocation.ofLine_setOption first, ofLine_of_setOption first⟩⟩

theorem reads_last_context :
    Reading "name A value context z".toList (.error .emptyOptionValue) ∧
      Request.ofLine "\u2003setoption  name A B value x context y\tcontext z" =
        .ok (some (.setOption ⟨"A B", "x context y", "z"⟩)) := by
  obtain ⟨grammar, _, lines⟩ := reads_grammar
  refine ⟨(grammar _ _).1 rfl, ?_⟩
  have line := lines "\u2003setoption  name A B value x context y\tcontext z"
    ["name", "A", "B", "value", "x", "context", "y", "context", "z"] (by decide)
  rw [line.2.2]
  rfl

end UciProtocol.Assignment
