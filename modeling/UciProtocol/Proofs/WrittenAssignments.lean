import UciProtocol.Engine.Idle
import UciProtocol.Proofs.Assignments
import UciProtocol.Proofs.Handling

/-! Assignments that are written on a line.

The first `value` of the line stands behind the name, because the name holds none; the last
`context` stands before the context, because the context holds none. What is between them may hold
both words. A session that receives the line makes the change to its settings and nothing else.
-/

set_option autoImplicit false

namespace UciProtocol

open Text

namespace Assignment

def behindValue (assignment : Assignment) : List Char :=
  if assignment.context = "" then assignment.value.toList
  else assignment.value.toList ++ ' ' :: ("context".toList ++ ' ' :: assignment.context.toList)

def behindName (assignment : Assignment) : List Char :=
  assignment.name.toList ++ ' ' :: ("value".toList ++ ' ' :: assignment.behindValue)

theorem toList_render (assignment : Assignment) :
    assignment.render.toList = "name".toList ++ ' ' :: assignment.behindName := by
  unfold render behindName behindValue
  split <;> simp [toString, String.toList_append]

/-- The parts of an assignment are not empty, and no blank begins or ends them. -/
structure Phrased (assignment : Assignment) : Prop where
  name : IsPhrase assignment.name.toList
  value : IsPhrase assignment.value.toList
  context : assignment.context ≠ "" → IsPhrase assignment.context.toList

/-- An assignment that can be written so that its parts can be told apart. -/
structure Writable (assignment : Assignment) : Prop where
  name : IsPhrase assignment.name.toList
  value : IsPhrase assignment.value.toList
  context : assignment.context ≠ "" → IsPhrase assignment.context.toList
  /-- The name does not hold the word that ends it. -/
  named : ∀ before after, ¬ StandsApart "value".toList assignment.name.toList before after
  /-- The last part does not hold the word that would begin another. -/
  placed : ∀ before after,
    ¬ StandsApart "context".toList
      (if assignment.context = "" then assignment.value else assignment.context).toList before after

namespace Phrased

variable {assignment : Assignment} (phrased : assignment.Phrased)
include phrased

theorem behindValue : IsPhrase assignment.behindValue := by
  unfold Assignment.behindValue
  split
  next => exact phrased.value
  next placed =>
    simpa using phrased.value.join (' ' :: ("context".toList ++ [' '])) (phrased.context placed)

theorem behindName : IsPhrase assignment.behindName := by
  unfold Assignment.behindName
  simpa using phrased.name.join (' ' :: ("value".toList ++ [' '])) phrased.behindValue

theorem render : IsPhrase assignment.render.toList := by
  have word : IsPhrase "name".toList := by decide
  simpa [toList_render] using word.join [' '] phrased.behindName

theorem names : Named assignment.render.toList assignment.behindName := by
  refine ⟨' ', assignment.behindName, ?_, by decide, ?_⟩
  · rw [phrased.render.trim_eq, toList_render]
  · rw [phrased.behindName.trim_eq]

end Phrased

theorem Named.cons_blank {text behind : List Char} (named : Named text behind) {c : Char}
    (blank : isBlank c = true) : Named (c :: text) behind := by
  obtain ⟨d, rest, begins, apart, same⟩ := named
  exact ⟨d, rest, by rw [trim_cons_blank blank, begins], apart, same⟩

namespace Writable

variable {assignment : Assignment} (writable : assignment.Writable)
include writable

theorem phrased : assignment.Phrased := ⟨writable.name, writable.value, writable.context⟩

theorem opened :
    Opened (' ' :: assignment.render.toList) (assignment.name.toList ++ [' '])
      (' ' :: assignment.behindValue) :=
  ⟨assignment.behindName, writable.phrased.names.cons_blank (by decide),
    StandsFirst.of_absent value_solid (by decide) (by decide) writable.named⟩

theorem reading : Reading (' ' :: assignment.render.toList) (.ok assignment) := by
  have space : isBlank ' ' = true := by decide
  have separator : isSeparator ' ' = true := by decide
  have opened := writable.opened
  have name := writable.name.trim_concat space
  have given : trim (' ' :: assignment.behindValue) = assignment.behindValue := by
    rw [trim_cons_blank space, writable.phrased.behindValue.trim_eq]
  have named : trim (assignment.name.toList ++ [' ']) ≠ [] := by
    rw [name]
    exact writable.name.nonempty
  by_cases everywhere : assignment.context = ""
  · have behind : assignment.behindValue = assignment.value.toList := if_pos everywhere
    have absent := writable.placed
    rw [if_pos everywhere, ← behind, ← given] at absent
    have valued : trim (' ' :: assignment.behindValue) ≠ [] := by
      rw [given]
      exact writable.phrased.behindValue.nonempty
    have reading := Reading.everywhere opened named absent valued
    rw [name, given, behind, String.ofList_toList, String.ofList_toList, ← everywhere] at reading
    exact reading
  · have behind : assignment.behindValue =
        assignment.value.toList ++ ' ' :: ("context".toList ++ ' ' :: assignment.context.toList) :=
      if_neg everywhere
    have phrase := writable.context everywhere
    have absent := writable.placed
    rw [if_neg everywhere] at absent
    have last : StandsLast "context".toList (trim (' ' :: assignment.behindValue))
        (assignment.value.toList ++ [' ']) (' ' :: assignment.context.toList) := by
      rw [given, behind]
      exact StandsLast.of_absent context_solid separator separator absent
    have value := writable.value.trim_concat space
    have context : trim (' ' :: assignment.context.toList) = assignment.context.toList := by
      rw [trim_cons_blank space, phrase.trim_eq]
    have placed : trim (' ' :: assignment.context.toList) ≠ [] := by
      rw [context]
      exact phrase.nonempty
    have valued : trim (assignment.value.toList ++ [' ']) ≠ [] := by
      rw [value]
      exact writable.value.nonempty
    have reading := Reading.inContext opened named last placed valued
    rw [name, value, context, String.ofList_toList, String.ofList_toList, String.ofList_toList]
      at reading
    exact reading

theorem ofLine :
    Request.ofLine s!"setoption {assignment.render}" = .ok (some (.setOption assignment)) := by
  have space : isBlank ' ' = true := by decide
  have nonempty : Command.setOption.name.toList ≠ [] := by decide
  have solid := (Command.isWord_name .setOption).2
  have apart : ∀ c ∈ (' ' :: assignment.render.toList).head?, isBlank c = true := by simp [space]
  have cut : s!"setoption {assignment.render}".toList =
      Command.setOption.name.toList ++ ' ' :: assignment.render.toList := by
    simp [toString, Command.name, String.toList_append]
  have first : tokens s!"setoption {assignment.render}" =
      Command.setOption.name :: tokens (String.ofList (' ' :: assignment.render.toList)) := by
    rw [tokens, cut, words_solid_append nonempty solid apart, tokens, String.toList_ofList]
    rfl
  have behind : afterFirstWord ([] ++ Command.setOption.name.toList ++
      ' ' :: assignment.render.toList) = ' ' :: assignment.render.toList :=
    afterFirstWord_append (by simp) solid apart (absurd · nonempty)
  rw [List.nil_append, ← cut] at behind
  rw [ofLine_of_setOption first, behind, writable.reading.eq_read]
  rfl

end Writable

end Assignment

namespace Session

variable {State : Type} (engine : Engine Unit State) (session : Session State)

theorem handle_setOption {line : String} {assignment : Assignment}
    (valid : Request.ofLine line = .ok (some (.setOption assignment))) :
    session.handle engine line =
      { session.assign assignment with
        events := .logged (heard line) :: (session.assign assignment).events } := by
  obtain ⟨invocation, read, made⟩ := Request.ofLine_eq_some valid
  have command : Command.setOption = invocation.command := Request.command_of_ofInvocation made
  have unremarked : remarks invocation = [] := by rw [remarks, ← command]
  rw [handle_valid engine session read made, unremarked]
  rfl

end Session

namespace Assignment

/-- A line that states an assignment is read as the assignment. It does to the settings of a session
what the assignment does to them, has its outcome, and does nothing else: the engine is not called
and nothing is put out. -/
theorem written_line_assigns :
    ∀ assignment : Assignment, assignment.Writable →
      let line := s!"setoption {assignment.render}"
      Request.ofLine line = .ok (some (.setOption assignment)) ∧
      ∀ {State : Type} (engine : Engine Unit State) (session : Session State),
        let step := session.handle engine line
        (match session.settings.set assignment with
          | .ok settings =>
            step.session = { session with settings } ∧ step.outcome = .ok .handled
          | .error error => step.session = session ∧ step.outcome = .error (.setting error)) ∧
        Event.calls step.events = [] ∧ (∀ text, .wrote text ∉ step.events) ∧
        Event.records step.events = heard line ::
          (session.settings.change assignment).toOption.toList.map Settings.Change.record := by
  intro assignment writable line
  refine ⟨writable.ofLine, fun engine session => ?_⟩
  rw [Session.handle_setOption engine session writable.ofLine]
  rcases session.assign_cases assignment with ⟨change, valid, step⟩ | ⟨error, wrong, step⟩
  · rw [step, Settings.set, valid]
    refine ⟨⟨rfl, rfl⟩, rfl, by simp, rfl⟩
  · rw [step, Settings.set, wrong]
    refine ⟨⟨rfl, rfl⟩, rfl, by simp, rfl⟩

theorem assigns_value_with_context :
    Request.ofLine "setoption name My Value value x  value context\ty context player 1" =
      .ok (some (.setOption ⟨"My Value", "x  value context\ty", "player 1"⟩)) ∧
    ∃ session : Session (Idle Unit),
      session.settings = Settings.declareAll {} [⟨"my value", .string ""⟩] ∧
      let step := session.handle Idle.engine
        "setoption name My Value value x  value context\ty context player 1"
      step.outcome = .ok .handled ∧ Event.calls step.events = [] ∧
      step.session.settings = session.settings.hold "player 1" "my value"
        (.text "x  value context\ty") := by
  have writable : Writable ⟨"My Value", "x  value context\ty", "player 1"⟩ := {
    name := by decide
    value := by decide
    context := fun _ => by decide
    named := (firstBounded?_eq_none_iff value_nonempty value_solid).1 (by decide)
    placed := (firstBounded?_eq_none_iff context_nonempty context_solid).1 (by decide) }
  let settings := Settings.declareAll {} [⟨"my value", .string ""⟩]
  have changed : settings.set ⟨"My Value", "x  value context\ty", "player 1"⟩ =
      .ok (settings.hold "player 1" "my value" (.text "x  value context\ty")) := by
    decide +kernel
  have written : ∀ assignment : Assignment,
      assignment = ⟨"My Value", "x  value context\ty", "player 1"⟩ →
      s!"setoption {assignment.render}" =
        "setoption name My Value value x  value context\ty context player 1" := by
    rintro _ rfl
    decide
  have assigned := written_line_assigns _ writable
  rw [written _ rfl] at assigned
  obtain ⟨read, sessions⟩ := assigned
  have step := sessions Idle.engine ⟨{}, settings, .working⟩
  dsimp only at step
  rw [changed] at step
  obtain ⟨⟨next, handled⟩, uncalled, _⟩ := step
  refine ⟨read, _, rfl, handled, uncalled, ?_⟩
  rw [next]

end Assignment

end UciProtocol
