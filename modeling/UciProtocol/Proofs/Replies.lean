import UciProtocol.Proofs.ErrorMessages
import UciProtocol.Proofs.HandledLines
import UciProtocol.Proofs.HeldSearches
import UciProtocol.Proofs.ReportLines
import UciProtocol.Proofs.Runs
import UciProtocol.Proofs.StandingSettings

/-! What a session of the idle engine answers to its lines.

The answer to a line is a number of whole lines that depends on the line and on whether a search is
held back. A line that fails is answered with one line, which begins with `error`, and no other
answer begins so. Whatever the input is, a GUI can tell which of its lines an answer belongs to.
-/

set_option autoImplicit false

namespace UciProtocol

open Text

/-! ### Declarations -/

def Setting.texts (setting : Setting) : List String :=
  setting.name ::
    match setting.kind with
    | .check _ | .spin .. => []
    | .combo default choices => default :: choices
    | .string default => [default]

theorem Text.unbroken_join {items : List String} (unbroken : ∀ item ∈ items, Unbroken item) :
    Unbroken (String.join items) := by
  rw [Unbroken, String.toList_join]
  intro member
  obtain ⟨item, given, inside⟩ := List.mem_flatMap.1 member
  exact unbroken item given inside

theorem Setting.unbroken_line {setting : Setting}
    (unbroken : ∀ text ∈ setting.texts, Unbroken text) : Unbroken setting.line := by
  have number (n : Int64) : Unbroken (Numeral.writeInt64 n) := (whole_int_repr _).unbroken
  obtain ⟨name, kind⟩ := setting
  obtain ⟨named, given⟩ := List.forall_mem_cons.1 unbroken
  refine ((Unbroken.append (by decide) named).append (by decide)).append ?_
  cases kind with
  | check default =>
    have word : Unbroken (boolText default) := by cases default <;> decide
    exact Unbroken.append (by decide) word
  | spin default least greatest =>
    exact (((Unbroken.append (by decide) (number default)).append (by decide)).append
      (number least) |>.append (by decide)).append (Unbroken.append (by decide) (number greatest))
  | combo default choices =>
    obtain ⟨first, rest⟩ := List.forall_mem_cons.1 given
    refine (Unbroken.append (by decide) first).append (unbroken_join ?_)
    exact List.forall_mem_map.2 fun choice member =>
      Unbroken.append (by decide) (rest choice member)
  | string default =>
    refine Unbroken.append (by decide) ?_
    split
    · decide
    · exact List.forall_mem_singleton.1 given

namespace Session

/-! ### Answers -/

/-- What is answered to a request that is carried out. -/
inductive Replies (session : Session (Idle Unit)) : Request → List String → Prop where
  | identified {names : List String} : names = identity ++ session.settings.lines →
      names.length = 2 + session.settings.declared.length →
      Replies session .uci (names ++ ["uciok"])
  | ready : Replies session .isReady ["readyok"]
  | nothing : Replies session .xyzzy ["Nothing happens."]
  | answered {search : Search} {move : Move} : ¬ search.Holds → search.Picks move →
      Replies session (.go search) (Idle.resultLines move)
  | withheld {search : Search} : search.Holds → Replies session (.go search) []
  | released {request : Request} {move : Move} : request = .stop ∨ request = .ponderHit →
      session.engine.held = some move → Replies session request (Idle.resultLines move)
  | unheld {request : Request} : request = .stop ∨ request = .ponderHit →
      session.engine.held = none → Replies session request []
  | assigned {assignment : Assignment} : Replies session (.setOption assignment) []
  | renewed : Replies session .newGame []
  | placed {position : Position} : Replies session (.position position) []
  | quit : Replies session .quit []

inductive Answers (session : Session (Idle Unit)) (line : String) : List String → Prop where
  | failed {error : LineError} : (session.handle Idle.engine line).outcome = .error error →
      Answers session line [s!"error {error.message}"]
  | blank : (session.handle Idle.engine line).outcome = .ok .blank → Answers session line []
  | carriedOut {request : Request} {lines : List String} :
      Request.ofLine line = .ok (some request) →
      (∀ error, (session.handle Idle.engine line).outcome ≠ .error error) →
      Replies session request lines → Answers session line lines

/-- The session can be heard, and says nothing that is broken. -/
structure Audible (session : Session (Idle Unit)) : Prop where
  engine : session.engine.Sound
  attached : session.engine.responder = some ()
  working : session.sink = .working
  declared : ∀ setting ∈ session.settings.declared, ∀ text ∈ setting.texts, Unbroken text

section
variable {session : Session (Idle Unit)} {line : String}

/-! ### The session behind a line -/

-- No request touches the declarations or the output.
theorem carryOut_frame {State : Type} (engine : Engine Unit State) (session : Session State)
    (request : Request) :
    (session.carryOut engine request).session.settings.declared = session.settings.declared ∧
      (session.carryOut engine request).session.sink = session.sink := by
  cases request with
  | uci | stop | ponderHit | quit | xyzzy => exact ⟨rfl, rfl⟩
  | setOption assignment =>
    rw [carryOut_setOption]
    rcases assign_cases session assignment with ⟨change, _, step⟩ | ⟨_, _, step⟩
    · rw [step]
      exact ⟨Settings.declared_apply _ change, rfl⟩
    · rw [step]
      exact ⟨rfl, rfl⟩
  | isReady | newGame | position | go =>
    rcases order_cases engine session _ _ with ⟨_, _, _, step⟩ | ⟨_, _, _, _, step⟩
    all_goals
      rw [carryOut, step]
      exact ⟨rfl, rfl⟩

theorem attached_carryOut (attached : session.engine.responder = some ()) (request : Request) :
    (session.carryOut Idle.engine request).session.engine.responder = some () := by
  rw [carryOut_engine]
  cases asked : asks request with
  | none => exact attached
  | some input =>
    refine (Idle.responder_react session.engine input ()).2 (.inr ⟨?_, attached⟩)
    cases request <;> cases asked <;> exact id

theorem declared_handle (line : String) :
    (session.handle Idle.engine line).session.settings.declared = session.settings.declared := by
  rcases handle_next Idle.engine session line with ⟨request, -, next⟩ | next <;> rw [next]
  exact (carryOut_frame Idle.engine session request).1

theorem Audible.handle (audible : session.Audible) (line : String) :
    (session.handle Idle.engine line).session.Audible := by
  rcases handle_next Idle.engine session line with ⟨request, -, next⟩ | next <;> rw [next]
  · obtain ⟨declared, sink⟩ := carryOut_frame Idle.engine session request
    refine ⟨?_, attached_carryOut audible.attached request, sink.trans audible.working, ?_⟩
    · rw [carryOut_engine]
      exact audible.engine.after _
    · rw [declared]
      exact audible.declared
  · exact audible

/-! ### What is written -/

theorem output_records (records : List Log.Record) (events : List Event) :
    Event.output (records.map .logged ++ events) = Event.output events := by
  rw [← Event.output_effects, Event.effects_records, Event.output_effects]

theorem output_answer (audible : session.Audible) (lines : List String) :
    Event.output (session.sink.sendAll lines) = closed lines := by
  rw [audible.working, Event.output_sendAll]

-- What has been read looks the same at every display.
theorem output_result (audible : session.Audible) {move : Move} (read : move.IsRead) :
    Event.output (session.heed (session.engine.result move)) =
      closed (Idle.resultLines move) := by
  have result : session.engine.result move =
      [.report () (.progress [{ depth := some 0, comment := "no search core attached" }]),
        .report () (.best { move })] := by
    rw [Idle.result, audible.attached]
  have heed : session.heed (session.engine.result move) =
      session.sink.sendAll (Idle.resultLines move) := by
    rw [result, ← Idle.lines_result read session.settings.display]
    simp [Session.heed, Engine.Signal.events, Sink.sendAll]
  rw [heed, output_answer audible]

theorem order_handled {order : Engine.Order} {answer : List String}
    (fine : ∀ error, (session.order Idle.engine order answer).outcome ≠ .error error) :
    (Idle.engine.react session.engine (.order order)).refusal = none ∧
      Event.output (session.order Idle.engine order answer).events =
        Event.output (session.heed (Idle.engine.react session.engine (.order order)).signals) ++
          Event.output (session.sink.sendAll answer) := by
  rcases order_cases Idle.engine session order answer with
    ⟨state, signals, done, step⟩ | ⟨_, _, _, _, step⟩
  · rw [step]
    simp only [Engine.react, done]
    exact ⟨trivial, Event.output_append _ _⟩
  · rw [step] at fine
    exact absurd rfl (fine _)

theorem notify_replies (audible : session.Audible) (notice : Engine.Notice) {request : Request}
    (ends : request = .stop ∨ request = .ponderHit) :
    ∃ lines, Replies session request lines ∧
      Event.output (session.notify Idle.engine notice).events = closed lines := by
  have output : Event.output (session.notify Idle.engine notice).events =
      Event.output (session.heed session.engine.release.2) := rfl
  rw [output, Idle.release]
  cases held : session.engine.held with
  | none => exact ⟨_, .unheld ends held, rfl⟩
  | some move =>
    exact ⟨_, .released ends held, output_result audible (audible.engine.held move held)⟩

theorem carryOut_replies (audible : session.Audible) {request : Request}
    (fine : ∀ error, (session.carryOut Idle.engine request).outcome ≠ .error error) :
    ∃ lines, Replies session request lines ∧
      Event.output (session.carryOut Idle.engine request).events = closed lines := by
  cases request with
  | uci =>
    have count : (identity ++ session.settings.lines).length =
        2 + session.settings.declared.length := by
      rw [List.length_append, Settings.lines, List.length_map]
      rfl
    exact ⟨_, .identified rfl count, output_answer audible _⟩
  | xyzzy => exact ⟨_, .nothing, output_answer audible _⟩
  | quit => exact ⟨_, .quit, rfl⟩
  | setOption assignment =>
    refine ⟨_, .assigned, ?_⟩
    rw [carryOut_setOption]
    rcases assign_cases session assignment with ⟨_, _, step⟩ | ⟨_, _, step⟩
    all_goals
      rw [step]
      rfl
  | isReady =>
    obtain ⟨-, output⟩ := order_handled fine
    exact ⟨_, .ready, output.trans (output_answer audible _)⟩
  | newGame =>
    obtain ⟨-, output⟩ := order_handled fine
    exact ⟨_, .renewed, output⟩
  | position position =>
    obtain ⟨settled, output⟩ := order_handled fine
    have step := Idle.reacts session.engine (.order (.setPosition position.fen position.moves))
    generalize Idle.engine.react session.engine _ = effect at settled output step
    cases step with
    | placed => exact ⟨_, .placed, output⟩
    | misplaced => cases settled
  | go search =>
    obtain ⟨settled, output⟩ := order_handled fine
    have step := Idle.reacts session.engine (.order (.go search))
    generalize Idle.engine.react session.engine _ = effect at settled output step
    cases step with
    | held _ holds => exact ⟨_, .withheld holds, output⟩
    | answered picks answers =>
      refine ⟨_, .answered answers picks, output.trans ?_⟩
      rw [output_result audible picks.isRead]
      exact String.append_empty
    | refused => cases settled
  | stop => exact notify_replies audible .stop (.inl rfl)
  | ponderHit => exact notify_replies audible .ponderHit (.inr rfl)

theorem handle_answers (audible : session.Audible)
    (fine : ∀ error, (session.handle Idle.engine line).outcome ≠ .error error) :
    ∃ lines, Answers session line lines ∧
      Event.output (session.handle Idle.engine line).events = closed lines := by
  cases read : Request.ofLine line with
  | error error =>
    rw [handle_invalid Idle.engine session read] at fine
    exact absurd rfl (fine _)
  | ok found =>
    cases found with
    | none =>
      have step := handle_blank Idle.engine session read
      refine ⟨[], .blank ?_, ?_⟩
      · rw [step]
      · rw [step]
        rfl
    | some request =>
      have outcome := (handle_request Idle.engine session read).2
      obtain ⟨records, events⟩ := handle_events Idle.engine session read
      obtain ⟨lines, replies, output⟩ := carryOut_replies audible (outcome ▸ fine)
      refine ⟨lines, .carriedOut read fine replies, ?_⟩
      rw [events, output_records, output]

/-- Every line is answered with whole lines. -/
theorem receive_answers (audible : session.Audible) (line : String) :
    ∃ lines, Answers session line lines ∧
      Event.output (session.receive Idle.engine line).2 = closed lines := by
  unfold receive
  dsimp only
  split
  next outcome handled =>
    apply handle_answers audible
    rw [handled]
    nofun
  next error failed =>
    refine ⟨_, .failed failed, ?_⟩
    have silent : Event.output (session.handle Idle.engine line).events = "" := by
      obtain ⟨records, ⟨-, step⟩ | ⟨_, _, _, _, refused, -, step⟩⟩ := handle_failed failed
      · rw [step, ← List.append_nil (records.map _)]
        exact output_records records []
      · rw [step, (Idle.refusesInSilence _ _ _ _ _ refused).2]
        exact output_records records _
    have working : (session.handle Idle.engine line).session.sink = .working :=
      (audible.handle line).working
    rw [Event.output_append, silent, working, ← Sink.sendAll_singleton, Event.output_sendAll,
      String.empty_append]

theorem receive_session (line : String) :
    (session.receive Idle.engine line).1 = (session.handle Idle.engine line).session := by
  unfold receive
  dsimp only
  split <;> rfl

/-! ### What answers are like -/

section
variable {request : Request} {lines : List String}

theorem Replies.unbroken (audible : session.Audible) (replies : Replies session request lines) :
    ∀ text ∈ lines, Unbroken text := by
  have result {move : Move} (read : move.IsRead) : ∀ text ∈ Idle.resultLines move,
      Unbroken text := by
    simp only [Idle.resultLines, List.forall_mem_cons]
    exact ⟨by decide, Unbroken.append (by decide) (read.onBoard.whole_text _).unbroken,
      List.forall_mem_nil _⟩
  cases replies with
  | ready | nothing => decide
  | withheld | unheld | assigned | renewed | placed | quit => exact List.forall_mem_nil _
  | answered _ picks => exact result picks.isRead
  | released _ held => exact result (audible.engine.held _ held)
  | identified names =>
    subst names
    simp only [List.forall_mem_append]
    refine ⟨⟨by decide, List.forall_mem_map.2 fun setting declared => ?_⟩, by decide⟩
    exact Setting.unbroken_line (audible.declared setting declared)

theorem Replies.not_error (replies : Replies session request lines) :
    ∀ text ∈ lines, ¬ Opens "error " text := by
  have result {move : Move} : ∀ text ∈ Idle.resultLines move, ¬ Opens "error " text := by
    simp only [Idle.resultLines, List.forall_mem_cons]
    refine ⟨by decide, fun opens => ?_, List.forall_mem_nil _⟩
    exact absurd (opens.comparable (opens_append _ _)) (by decide)
  cases replies with
  | ready | nothing => decide
  | withheld | unheld | assigned | renewed | placed | quit => exact List.forall_mem_nil _
  | answered | released => exact result
  | identified names =>
    subst names
    simp only [List.forall_mem_append]
    refine ⟨⟨by decide, List.forall_mem_map.2 fun setting _ opens => ?_⟩, by decide⟩
    exact absurd (opens.comparable setting.line_opens) (by decide)

end

def failure? (session : Session (Idle Unit)) (line : String) : Option LineError :=
  match (session.handle Idle.engine line).outcome with
  | .error error => some error
  | .ok _ => none

theorem Answers.unbroken (audible : session.Audible) (whole : Unbroken line) {lines : List String}
    (answers : Answers session line lines) : ∀ text ∈ lines, Unbroken text := by
  cases answers with
  | failed failed =>
    have named : ∀ setting ∈ session.settings.declared, Unbroken setting.name :=
      fun setting declared => audible.declared setting declared _ List.mem_cons_self
    exact List.forall_mem_singleton.2
      (Unbroken.append (by decide) (unbroken_of_failed whole named failed))
  | blank => exact List.forall_mem_nil _
  | carriedOut _ _ replies => exact replies.unbroken audible

/-- Just a line that fails is answered with an error, and with one. -/
theorem Answers.filter_errors {lines : List String} (answers : Answers session line lines) :
    lines.filter (Opens "error ") =
      (session.failure? line).toList.map fun error => s!"error {error.message}" := by
  unfold failure?
  cases answers with
  | failed failed =>
    have opens {error : LineError} : Opens "error " s!"error {error.message}" := opens_append _ _
    rw [failed]
    simp [opens]
  | blank blank =>
    rw [blank]
    rfl
  | carriedOut _ fine replies =>
    have none : lines.filter (Opens "error ") = [] :=
      List.filter_eq_nil_iff.2 fun text member => by simpa using replies.not_error text member
    rw [none]
    split
    next failed => exact absurd failed (fine _)
    next => rfl

end

/-! ### All lines -/

section
variable {State : Type} (engine : Engine Unit State)

def met (session : Session State) : List String → List (Session State × String)
  | [] => []
  | line :: lines => (session, line) :: met (session.handle engine line).session lines

end

variable {session : Session (Idle Unit)}

theorem follow_answers (audible : session.Audible) {lines : List String}
    (whole : ∀ line ∈ lines, Unbroken line) :
    ∃ answers : List (List String),
      List.Forall₂ (fun place lines => Answers place.1 place.2 lines)
        (session.met Idle.engine lines) answers ∧
      Event.output (session.follow Idle.engine lines).2 = closed answers.flatten ∧
      (∀ text ∈ answers.flatten, Unbroken text) ∧
      answers.flatten.filter (Opens "error ") =
        ((session.met Idle.engine lines).filterMap fun place => place.1.failure? place.2).map
          fun error => s!"error {error.message}" := by
  induction lines generalizing session with
  | nil => exact ⟨[], .nil, rfl, List.forall_mem_nil _, rfl⟩
  | cons line lines ih =>
    obtain ⟨here, rest⟩ := List.forall_mem_cons.1 whole
    obtain ⟨first, answered, output⟩ := receive_answers audible line
    obtain ⟨answers, later, outputs, unbroken, errors⟩ := ih (audible.handle line) rest
    refine ⟨first :: answers, .cons answered later, ?_, ?_, ?_⟩
    · rw [follow, receive_session, Event.output_append, output, outputs, List.flatten_cons,
        closed_append]
    · rw [List.flatten_cons, List.forall_mem_append]
      exact ⟨answered.unbroken audible here, unbroken⟩
    · rw [List.flatten_cons, List.filter_append, answered.filter_errors, errors, met]
      cases failed : session.failure? line <;> simp [failed]

theorem declared_met (lines : List String) :
    ∀ place ∈ session.met Idle.engine lines,
      place.1.settings.declared = session.settings.declared := by
  induction lines generalizing session with
  | nil => exact List.forall_mem_nil _
  | cons line lines ih =>
    refine List.forall_mem_cons.2 ⟨rfl, fun place member => ?_⟩
    rw [ih place member, declared_handle]

theorem audible_start (inputs : List (Engine.Input Unit)) {settings : Settings}
    (unbroken : ∀ setting ∈ settings.declared, ∀ text ∈ setting.texts, Unbroken text) :
    Audible (start Idle.engine ⟨Idle.behind inputs, settings, .working⟩).1 where
  engine := (Idle.sound_behind inputs).react (.register ())
  attached := rfl
  working := rfl
  declared := unbroken

theorem unbroken_of_delivered (bytes : List UInt8) (fails : Bool) :
    ∀ line ∈ throughQuit ((Source.delivered bytes fails).map received), Unbroken line := by
  intro line member
  obtain ⟨piece, delivered, rfl⟩ := List.mem_map.1 (List.mem_of_mem_take member)
  have cut : piece ∈ byteLines bytes := by
    unfold Source.delivered at delivered
    split at delivered
    · exact List.mem_of_mem_filter delivered
    · exact delivered
  exact unbroken_received ((Source.byteLines_cut bytes).2.1 piece cut).2

/-- Every line of a run is answered with whole lines, as many as its kind has: one for a line that
fails, one for each declaration and three more where the engine is to name itself, one for `isready`
and for `xyzzy`, two for a search that ends, and none otherwise. The lines that begin with `error`
are those that fail, in order. -/
theorem each_line_is_answered (inputs : List (Engine.Input Unit)) (settings : Settings)
    (unbroken : ∀ setting ∈ settings.declared, ∀ text ∈ setting.texts, Unbroken text)
    (bytes : List UInt8) (size : Source.BufferSize) (fails : Bool) :
    let session := (start Idle.engine ⟨Idle.behind inputs, settings, .working⟩).1
    let places := session.met Idle.engine
      (throughQuit ((Source.delivered bytes fails).map received))
    let output := Event.output (session.run Idle.engine (.ofBytes bytes size fails)).events
    (∀ place ∈ places, place.1.settings.declared = settings.declared) ∧
    ∃ answers : List (List String),
      List.Forall₂ (fun place lines => Answers place.1 place.2 lines) places answers ∧
      output = closed answers.flatten ∧
      Text.lines output.toList = answers.flatten.map (fun text => (text ++ "\n").toList) ∧
      (Text.lines output.toList).filter (fun line => "error ".toList <+: line) =
        (places.filterMap fun place => place.1.failure? place.2).map fun error =>
          (s!"error {error.message}" ++ "\n").toList := by
  intro session places output
  have audible := audible_start inputs unbroken
  have whole := unbroken_of_delivered bytes fails
  obtain ⟨answers, answered, outputs, solid, errors⟩ := follow_answers audible whole
  have run : output = closed answers.flatten := by
    obtain ⟨-, effects, -⟩ := serveAll_follow Idle.engine fails session
      (Source.delivered bytes fails)
    rw [← outputs, ← Event.output_effects, ← effects, Event.output_effects, ← Source.lines_ofBytes]
    exact congrArg (fun run => Event.output run.events) (run_eq_serveAll Idle.engine session _)
  have lines : Text.lines output.toList =
      answers.flatten.map fun text => (text ++ "\n").toList := by
    rw [run, lines_closed_unbroken solid]
  refine ⟨declared_met _, answers, answered, run, lines, ?_⟩
  have opens : (fun line => decide ("error ".toList <+: line)) ∘
      (fun text : String => (text ++ "\n").toList) = fun text => decide (Opens "error " text) :=
    funext fun text => decide_eq_decide.2 (opens_line_iff (by decide))
  rw [lines, List.filter_map, opens, errors, List.map_map]
  rfl

-- The carriage return inside the first line is blank, and the byte before it is no text.
theorem answers_line_of_invalid_bytes :
    let settings : Settings := Settings.declareAll {} (Settings.displaySettings ++ Idle.settings)
    let session := (start Idle.engine ⟨Idle.behind [], settings, .working⟩).1
    let output := Event.output (session.run Idle.engine
      (.ofBytes [97, 255, 13, 98, 10, 115, 116, 111, 112, 10] 3 false)).events
    (∀ setting ∈ settings.declared, ∀ text ∈ setting.texts, Unbroken text) ∧
    (Text.lines output.toList).filter (fun line => "error ".toList <+: line) =
      ["error Unknown command: 'a\ufffd' from line: 'a\ufffd\rb'\n".toList] := by
  intro settings session output
  have unbroken : ∀ setting ∈ settings.declared, ∀ text ∈ setting.texts, Unbroken text := by
    decide
  refine ⟨unbroken, ?_⟩
  obtain ⟨-, answers, -, -, -, errors⟩ := each_line_is_answered [] settings unbroken
    [97, 255, 13, 98, 10, 115, 116, 111, 112, 10] 3 false
  exact errors.trans (by decide)

end Session

end UciProtocol
