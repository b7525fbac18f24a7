import Mathlib.Data.Finset.Insert
import UciProtocol.Proofs.HandledLines
import UciProtocol.Proofs.StandingSettings

/-! Lines that can be left out.

Sessions of the idle engine that differ in nothing but the values of settings cannot be told apart
by the lines that they handle. So a line that fails, is blank, or assigns a value to a setting can
be left out, and no other line shows it.
-/

set_option autoImplicit false

namespace UciProtocol

open Engine

/-! ### What is left of a list -/

def without {α : Type} (places : Finset Nat) (list : List α) : List α :=
  (list.zipIdx.filter fun item => item.2 ∉ places).map Prod.fst

theorem without_concat {α : Type} (places : Finset Nat) (list : List α) (item : α) :
    without places (list ++ [item]) =
      without places list ++ if list.length ∈ places then [] else [item] := by
  unfold without
  rw [List.zipIdx_append, List.filter_append, List.map_append]
  by_cases left : list.length ∈ places <;> simp [left]

/-! ### Settings with the same declarations -/

theorem Settings.change_of_declared {first second : Settings}
    (same : first.declared = second.declared) (assignment : Assignment) :
    first.change assignment = second.change assignment := by
  rw [change, find?, same, ← find?, ← change]

/-! ### Reports -/

/-- What the idle engine gives out looks the same at every display. -/
theorem Idle.events_react {idle : Idle Unit} (sound : idle.Sound) (input : Engine.Input Unit)
    (sink : Sink) (display other : Display) :
    (engine.react idle input).signals.flatMap (·.events display sink) =
      (engine.react idle input).signals.flatMap (·.events other sink) := by
  have result {move : Move} (read : move.IsRead) :
      (idle.result move).flatMap (·.events display sink) =
        (idle.result move).flatMap (·.events other sink) := by
    have lines := (lines_result read display).trans (lines_result read other).symm
    unfold Idle.result
    cases idle.responder with
    | none => simp only [List.flatMap_singleton, Signal.events]
    | some responder =>
      have sent (display : Display) (first second : Report) :
          [Signal.report responder first, .report responder second].flatMap
              (·.events display sink) =
            sink.sendAll (first.lines display ++ second.lines display) := by
        simp [Signal.events, Sink.sendAll]
      rw [sent, sent, lines]
  have step := reacts idle input
  generalize engine.react idle input = effect at step
  cases step with
  | answered picks => exact result picks.isRead
  | released =>
    cases held : idle.held with
    | none => simp only [Option.toList_none, List.flatMap_nil]
    | some move => simpa using result (sound.held move held)
  | ready | renewed | placed | misplaced | held | refused | registered | unregistered =>
    simp only [List.flatMap_nil]

/-! ### Sessions that cannot be told apart -/

/-- Sessions that differ in nothing but the values of settings. -/
structure Session.Alike {State : Type} (first second : Session State) : Prop where
  engine : first.engine = second.engine
  declared : first.settings.declared = second.settings.declared
  sink : first.sink = second.sink

/-- Steps that look the same and lead to sessions that cannot be told apart. -/
structure Step.Alike {State : Type} (first second : Step State) : Prop where
  session : first.session.Alike second.session
  events : first.events = second.events
  outcome : first.outcome = second.outcome

namespace Session

variable {first second : Session (Idle Unit)}

section
variable (alike : first.Alike second) (sound : first.engine.Sound)
include alike sound

theorem heed_alike (input : Input Unit) :
    first.heed (Idle.engine.react first.engine input).signals =
      second.heed (Idle.engine.react second.engine input).signals := by
  unfold heed
  rw [← alike.engine, ← alike.sink]
  exact Idle.events_react sound input ..

theorem order_alike (order : Order) (answer : List String) :
    (first.order Idle.engine order answer).Alike (second.order Idle.engine order answer) := by
  have heed := heed_alike alike sound (.order order)
  unfold Session.order
  rw [← alike.engine, ← alike.sink]
  rw [← alike.engine] at heed
  cases reply : Idle.engine.obey first.engine order with
  | done state signals =>
    simp only [react, reply] at heed
    exact ⟨⟨rfl, alike.declared, rfl⟩, by simp only [heed], rfl⟩
  | refused state signals refusal =>
    simp only [react, reply] at heed
    exact ⟨⟨rfl, alike.declared, rfl⟩, by simp only [heed], rfl⟩

theorem notify_alike (notice : Notice) :
    (first.notify Idle.engine notice).Alike (second.notify Idle.engine notice) := by
  have heed := heed_alike alike sound (.notice notice)
  unfold Session.notify
  rw [← alike.engine] at heed ⊢
  exact ⟨⟨rfl, alike.declared, alike.sink⟩, congrArg (.called (.notice notice) :: ·) heed, rfl⟩

omit sound in
theorem answer_alike (lines : List String) : (first.answer lines).Alike (second.answer lines) :=
  ⟨alike, congrArg (·.sendAll lines) alike.sink, rfl⟩

omit sound in
theorem assign_alike (assignment : Assignment) :
    (first.assign assignment).Alike (second.assign assignment) := by
  unfold assign
  rw [← Settings.change_of_declared alike.declared]
  cases first.settings.change assignment with
  | error error => exact ⟨alike, rfl, rfl⟩
  | ok change =>
    refine ⟨⟨alike.engine, ?_, alike.sink⟩, rfl, rfl⟩
    rw [Settings.declared_apply, Settings.declared_apply, alike.declared]

theorem carryOut_alike (request : Request) :
    (first.carryOut Idle.engine request).Alike (second.carryOut Idle.engine request) := by
  cases request with
  | uci =>
    have lines : first.settings.lines = second.settings.lines :=
      congrArg (List.map Setting.line) alike.declared
    unfold carryOut
    rw [lines]
    exact answer_alike alike _
  | xyzzy => exact answer_alike alike _
  | setOption assignment => exact assign_alike alike assignment
  | isReady => exact order_alike alike sound .getReady _
  | newGame => exact order_alike alike sound .newGame _
  | position | go => exact order_alike alike sound _ _
  | stop | ponderHit => exact notify_alike alike sound _
  | quit => exact ⟨alike, rfl, rfl⟩

theorem handle_alike (line : String) :
    (first.handle Idle.engine line).Alike (second.handle Idle.engine line) := by
  cases read : Request.ofLine line with
  | error cause =>
    rw [handle_invalid Idle.engine _ read, handle_invalid Idle.engine _ read]
    exact ⟨alike, rfl, rfl⟩
  | ok found =>
    cases found with
    | none =>
      rw [handle_blank Idle.engine _ read, handle_blank Idle.engine _ read]
      exact ⟨alike, rfl, rfl⟩
    | some request =>
      obtain ⟨invocation, invoked, made⟩ := Request.ofLine_eq_some read
      obtain ⟨session, events, outcome⟩ := carryOut_alike alike sound request
      rw [handle_valid Idle.engine _ invoked made, handle_valid Idle.engine _ invoked made]
      exact ⟨session, by rw [events], outcome⟩

end

end Session

/-! ### Lines that are left out -/

/-- The line is blank, or has failed, or has assigned a value to a setting. -/
def Entry.Erasable {State : Type} (entry : Entry State) : Prop :=
  entry.step.outcome = .ok .blank ∨ (∃ error, entry.step.outcome = .error error) ∨
    entry.CarriesOut .setOption

theorem Entry.Erasable.assigned {State : Type} {entry : Entry State} (erasable : entry.Erasable)
    (handled : entry.step.outcome = .ok .handled) : entry.CarriesOut .setOption := by
  rcases erasable with blank | ⟨error, failed⟩ | assigned
  · cases handled.symm.trans blank
  · cases handled.symm.trans failed
  · exact assigned

namespace Session

theorem handle_erasable {session : Session (Idle Unit)} {line : String}
    (erasable : Entry.Erasable ⟨line, session.handle Idle.engine line⟩) :
    (session.handle Idle.engine line).session.Alike session := by
  by_cases handled : (session.handle Idle.engine line).outcome = .ok .handled
  · obtain ⟨request, read⟩ := request_of_handled handled
    have command := ((carriesOut_iff read).1 (erasable.assigned handled)).2
    rw [(handle_request Idle.engine session read).1]
    cases request with
    | setOption assignment =>
      rw [carryOut_setOption]
      rcases assign_cases session assignment with ⟨change, -, step⟩ | ⟨error, -, step⟩
      · rw [step]
        exact ⟨rfl, Settings.declared_apply .., rfl⟩
      · rw [step]
        exact ⟨rfl, rfl, rfl⟩
    | uci | isReady | newGame | position | go | stop | ponderHit | quit | xyzzy => cases command
  · rw [handle_unhandled handled]
    exact ⟨rfl, rfl, rfl⟩

section
variable {session : Session (Idle Unit)} {places : Finset Nat} {lines : List String}

-- Along the lines: the sessions that have handled all of them and the rest stay alike.
theorem alike_without (sound : session.engine.Sound)
    (erasable : ∀ place ∈ places, ∀ entry ∈ (session.entries Idle.engine lines)[place]?,
      entry.Erasable) :
    (session.behind Idle.engine lines).Alike
        (session.behind Idle.engine (without places lines)) ∧
      (session.entries Idle.engine (without places lines)).map Entry.seen =
        (without places (session.entries Idle.engine lines)).map Entry.seen := by
  induction lines using List.reverseRecOn with
  | nil => exact ⟨⟨rfl, rfl, rfl⟩, rfl⟩
  | append_singleton lines line ih =>
    obtain ⟨alike, seen⟩ := ih fun place left entry member =>
      erasable place left entry (earlier_entry Idle.engine session line member)
    rw [behind_concat, entries_concat, without_concat, without_concat, length_entries]
    by_cases left : lines.length ∈ places
    · have erased := handle_erasable (erasable _ left _ (last_entry Idle.engine session lines line))
      rw [if_pos left, if_pos left, List.append_nil, List.append_nil]
      refine ⟨⟨?_, ?_, ?_⟩, seen⟩
      · rw [erased.engine, alike.engine]
      · rw [erased.declared, alike.declared]
      · rw [erased.sink, alike.sink]
    · obtain ⟨next, events, outcome⟩ := handle_alike alike (sound_behind sound lines) line
      rw [if_neg left, if_neg left, behind_concat, entries_concat, List.map_append, seen,
        List.map_append]
      refine ⟨next, congrArg _ ?_⟩
      simp only [List.map_cons, List.map_nil, Entry.seen, events, outcome]

theorem behind_without
    (unhandled : ∀ place ∈ places, ∀ entry ∈ (session.entries Idle.engine lines)[place]?,
      entry.step.outcome ≠ .ok .handled) :
    session.behind Idle.engine (without places lines) = session.behind Idle.engine lines := by
  induction lines using List.reverseRecOn with
  | nil => rfl
  | append_singleton lines line ih =>
    have same := ih fun place left entry member =>
      unhandled place left entry (earlier_entry Idle.engine session line member)
    rw [behind_concat, without_concat]
    by_cases left : lines.length ∈ places
    · have last := last_entry Idle.engine session lines line
      have still := handle_unhandled (unhandled _ left _ last)
      rw [if_pos left, List.append_nil, same, still]
    · rw [if_neg left, behind_concat, same]

end

/-- Lines that are blank, fail or assign a value to a setting can be left out: the others look the
same, and the engine ends up the same. The settings do too, unless a value has been assigned. -/
theorem rest_is_same_without_erased (inputs : List (Input Unit)) (settings : Settings)
    (sink : Sink) (lines : List String) (places : Finset Nat) :
    let session := (start Idle.engine ⟨Idle.behind inputs, settings, sink⟩).1
    let entries := session.entries Idle.engine lines
    let rest := without places lines
    (∀ place ∈ places, ∀ entry ∈ entries[place]?, entry.Erasable) →
      (session.entries Idle.engine rest).map Entry.seen = (without places entries).map Entry.seen ∧
      (session.behind Idle.engine rest).engine = (session.behind Idle.engine lines).engine ∧
      ((∀ place ∈ places, ∀ entry ∈ entries[place]?, ¬ entry.CarriesOut .setOption) →
        (session.behind Idle.engine rest).settings =
          (session.behind Idle.engine lines).settings) := by
  intro session entries rest erasable
  have sound : session.engine.Sound := (Idle.sound_behind inputs).react (.register ())
  obtain ⟨alike, seen⟩ := alike_without sound erasable
  refine ⟨seen, alike.engine.symm, fun unassigned => ?_⟩
  have unhandled : ∀ place ∈ places, ∀ entry ∈ entries[place]?,
      entry.step.outcome ≠ .ok .handled := fun place left entry member handled =>
    unassigned place left entry member ((erasable place left entry member).assigned handled)
  exact congrArg Session.settings (behind_without unhandled)

theorem castling_notation_leaves_answers :
    let session : Session (Idle Unit) :=
      (start Idle.engine ⟨{}, .declareAll {} Settings.displaySettings, .working⟩).1
    let lines := ["setoption name UCI_Chess960 value true", "go infinite", "position fen 8/8",
      "", "go searchmoves e2e9", "stop"]
    let rest := ["go infinite", "stop"]
    (∀ place ∈ ({0, 2, 3, 4} : Finset Nat), ∀ entry ∈ (session.entries Idle.engine lines)[place]?,
      entry.Erasable) ∧
    (session.entries Idle.engine rest).map Entry.seen =
      (without {0, 2, 3, 4} (session.entries Idle.engine lines)).map Entry.seen ∧
    (session.behind Idle.engine rest).engine = (session.behind Idle.engine lines).engine ∧
    (session.behind Idle.engine rest).settings ≠ (session.behind Idle.engine lines).settings := by
  intro session lines rest
  have erasable : ∀ place ∈ ({0, 2, 3, 4} : Finset Nat),
      ∀ entry ∈ (session.entries Idle.engine lines)[place]?, entry.Erasable := by
    intro place left
    simp only [Finset.mem_insert, Finset.mem_singleton] at left
    rcases left with rfl | rfl | rfl | rfl
    · rintro _ ⟨⟩
      exact .inr (.inr ⟨rfl, by decide⟩)
    · rintro _ ⟨⟩
      exact .inr (.inl ⟨_, rfl⟩)
    · rintro _ ⟨⟩
      exact .inl rfl
    · rintro _ ⟨⟩
      exact .inr (.inl ⟨_, rfl⟩)
  have left : without {0, 2, 3, 4} lines = rest := by decide
  obtain ⟨seen, engine, -⟩ := rest_is_same_without_erased [] _ .working lines {0, 2, 3, 4} erasable
  rw [left] at seen engine
  exact ⟨erasable, seen, engine, by decide⟩

end Session

end UciProtocol
