import UciProtocol.Engine.Scripted
import UciProtocol.Proofs.EngineCalls
import UciProtocol.Proofs.Launches
import UciProtocol.Proofs.Replies
import UciProtocol.Proofs.SinkFailures

/-! The log as a transcript.

A log that is kept in detail tells of each line that is received, in front of all that comes of it,
and of each line that is put out, at the moment it is. So the lines of both directions can be told
from the log alone. What a log leaves out is left out record by record, and has no bearing on
anything else.
-/

set_option autoImplicit false

namespace UciProtocol

open Text

/-! ### Records by their writers -/

namespace Log

def Record.IsOf (component : Component) (level : Level) (record : Record) : Prop :=
  record.target = component.target ∧ record.level = level

instance (component : Component) (level : Level) (record : Record) :
    Decidable (record.IsOf component level) := inferInstanceAs (Decidable (_ ∧ _))

/-- A record that is not written where lines are received or sent. -/
def Record.IsAside (record : Record) : Prop :=
  record.target ≠ Component.dispatch.target ∧ record.target ≠ Component.responder.target

instance (record : Record) : Decidable record.IsAside := inferInstanceAs (Decidable (_ ∧ _))

theorem Component.target_injective : Function.Injective Component.target := by
  intro component other same
  cases component <;> cases other <;> first | rfl | exact absurd same (by decide)

theorem Component.record_aside {component : Component} (unheard : component ≠ .dispatch)
    (silent : component ≠ .responder) (level : Level) (message : String) :
    (component.record level message).IsAside :=
  ⟨fun same => unheard (target_injective same), fun same => silent (target_injective same)⟩

/-- The text of the lines that were sent according to a log: each without the mark before it, and
with a line feed behind it. -/
def transcript (records : List Record) : String :=
  closed ((records.filter (·.IsOf .responder .debug)).map fun record =>
    String.ofList (record.message.toList.drop 3))

theorem admits_of_detail {filter : Filter} {level other : Level}
    (admits : filter.admits level = true) (less : other.detail ≤ level.detail) :
    filter.admits other = true := by
  cases filter with
  | off => cases admits
  | upTo most => exact decide_eq_true (Nat.le_trans less (of_decide_eq_true admits))

theorem filter_kept {filter : Filter} {level : Level} (admits : filter.admits level = true)
    (component : Component) (records : List Record) :
    (kept filter records).filter (·.IsOf component level) =
      records.filter (·.IsOf component level) := by
  rw [kept, List.filter_filter]
  apply List.filter_congr
  intro record _
  rw [Bool.and_eq_left_iff_imp]
  intro own
  rw [(of_decide_eq_true own).2]
  exact admits

end Log

namespace Event

def noted (component : Log.Component) (level : Log.Level) (events : List Event) :
    List Log.Record :=
  (records events).filter (·.IsOf component level)

theorem noted_append (component : Log.Component) (level : Log.Level) (front back : List Event) :
    noted component level (front ++ back) =
      noted component level front ++ noted component level back := by
  rw [noted, records_append, List.filter_append]
  rfl

theorem noted_kept {filter : Log.Filter} {level : Log.Level} (admits : filter.admits level = true)
    (component : Log.Component) (events : List Event) :
    noted component level (kept filter events) = noted component level events := by
  rw [noted, records_kept, Log.filter_kept admits]
  rfl

end Event

/-! ### Lines that are said -/

/-- Events in which lines are put out and logged as they are sent, while nothing is logged where
lines are received. -/
structure Speaks (lines : List String) (events : List Event) : Prop where
  output : Event.output events = closed lines
  sent : Event.noted .responder .debug events = lines.map Sink.sending
  unheard : ∀ level, Event.noted .dispatch level events = []

namespace Speaks

theorem nil : Speaks [] [] := ⟨rfl, rfl, fun _ => rfl⟩

theorem append {front back : List String} {first later : List Event} (before : Speaks front first)
    (behind : Speaks back later) : Speaks (front ++ back) (first ++ later) where
  output := by rw [Event.output_append, before.output, behind.output, closed_append]
  sent := by rw [Event.noted_append, before.sent, behind.sent, List.map_append]
  unheard level := by rw [Event.noted_append, before.unheard, behind.unheard, List.append_nil]

theorem called (call : Engine.Call) : Speaks [] [.called call] := ⟨rfl, rfl, fun _ => rfl⟩

theorem logged {record : Log.Record} (aside : record.IsAside) : Speaks [] [.logged record] where
  output := rfl
  sent := List.filter_eq_nil_iff.2 (by simp [Event.records, Log.Record.IsOf, aside.2])
  unheard level := List.filter_eq_nil_iff.2 (by simp [Event.records, Log.Record.IsOf, aside.1])

theorem send (line : String) : Speaks [line] (Sink.working.send line) where
  output := by
    rw [← Sink.sendAll_singleton]
    exact Event.output_sendAll [line]
  sent := rfl
  unheard _ := rfl

theorem sendAll (lines : List String) : Speaks lines (Sink.working.sendAll lines) := by
  induction lines with
  | nil => exact .nil
  | cons line lines ih => exact (send line).append ih

end Speaks

/-! ### Engines that keep to themselves -/

/-- Whatever an engine logs, it does not log it where lines are received or sent. -/
def Engine.LogsAside {State : Type} (engine : Engine Unit State) : Prop :=
  ∀ state input record, .log record ∈ (engine.react state input).signals → record.IsAside

theorem Idle.result_aside {Responder : Type} (idle : Idle Responder) (move : Move)
    {record : Log.Record} (member : .log record ∈ idle.result move) : record.IsAside := by
  unfold result at member
  split at member
  · cases List.mem_singleton.1 member
    decide
  · simp at member

theorem Idle.logsAside : (engine : Engine Unit (Idle Unit)).LogsAside := by
  intro idle input record member
  have step := reacts idle input
  generalize engine.react idle input = effect at step member
  cases step with
  | answered => exact idle.result_aside _ member
  | released =>
    obtain ⟨move, -, inside⟩ := List.mem_flatMap.1 member
    exact idle.result_aside move inside
  | ready | renewed | placed | misplaced | held | refused | registered | unregistered =>
    cases member

theorem Scripted.send_ne_log (scripted : Scripted Unit) (reports : List Report)
    (record : Log.Record) : .log record ∉ scripted.send reports := by
  unfold send
  split <;> simp

theorem Scripted.logsAside : (engine : Engine Unit (Scripted Unit)).LogsAside := by
  intro scripted input record member
  cases input with
  | order order =>
    simp only [Engine.react, engine] at member
    cases refused : refusal? scripted.script order with
    | some refusal => simp [refused] at member
    | none =>
      simp only [refused] at member
      exact absurd member (scripted.send_ne_log _ record)
  | notice notice => exact absurd member (scripted.send_ne_log _ record)
  | register | unregister => cases member

namespace Session

variable {State : Type} {engine : Engine Unit State} {session : Session State}

theorem heed_speaks (working : session.sink = .working) {signals : List (Engine.Signal Unit)}
    (aside : ∀ record, .log record ∈ signals → record.IsAside) :
    ∃ lines, Speaks lines (session.heed signals) := by
  induction signals with
  | nil => exact ⟨[], .nil⟩
  | cons signal signals ih =>
    obtain ⟨later, speaks⟩ := ih fun record member => aside record (List.mem_cons_of_mem _ member)
    cases signal with
    | report responder report =>
      have first := Speaks.sendAll (report.lines session.settings.display)
      rw [← working] at first
      exact ⟨_, first.append speaks⟩
    | log record => exact ⟨_, (Speaks.logged (aside record List.mem_cons_self)).append speaks⟩

theorem remarks_speak (invocation : Invocation) : Speaks [] (remarks invocation) := by
  unfold remarks
  split
  · cases Position.ignored? invocation.arguments with
    | none => exact .nil
    | some text => exact .logged (Log.Component.record_aside (by decide) (by decide) _ _)
  · exact .nil

section
variable (aside : engine.LogsAside) (working : session.sink = .working)
include aside working

theorem order_speaks (order : Engine.Order) (answer : List String) :
    ∃ lines, Speaks lines (session.order engine order answer).events := by
  obtain ⟨lines, speaks⟩ := heed_speaks working (aside session.engine (.order order))
  rw [Engine.react] at speaks
  rcases order_cases engine session order answer with
    ⟨state, signals, done, step⟩ | ⟨state, signals, refusal, refused, step⟩
  · rw [done] at speaks
    have answered := Speaks.sendAll answer
    rw [← working] at answered
    rw [step]
    exact ⟨_, (Speaks.called _).append (speaks.append answered)⟩
  · rw [refused] at speaks
    rw [step]
    exact ⟨_, (Speaks.called _).append speaks⟩

theorem notify_speaks (notice : Engine.Notice) :
    ∃ lines, Speaks lines (session.notify engine notice).events := by
  obtain ⟨lines, speaks⟩ := heed_speaks working (aside session.engine (.notice notice))
  exact ⟨_, (Speaks.called (.notice notice)).append speaks⟩

omit aside in
theorem answer_speaks (lines : List String) : Speaks lines (session.answer lines).events := by
  have sent := Speaks.sendAll lines
  rwa [← working] at sent

theorem carryOut_speaks (request : Request) :
    ∃ lines, Speaks lines (session.carryOut engine request).events := by
  cases request with
  | isReady | newGame | position | go => exact order_speaks aside working _ _
  | stop | ponderHit => exact notify_speaks aside working _
  | uci | xyzzy => exact ⟨_, answer_speaks working _⟩
  | quit => exact ⟨_, .nil⟩
  | setOption assignment =>
    rw [carryOut_setOption]
    rcases assign_cases session assignment with ⟨change, _, step⟩ | ⟨_, _, step⟩
    · rw [step]
      exact ⟨_, .logged (Log.Component.record_aside (by decide) (by decide) _ _)⟩
    · rw [step]
      exact ⟨_, .nil⟩

-- A line is told of before anything comes of it.
theorem handle_speaks (line : String) :
    ∃ rest lines, (session.handle engine line).events = .logged (heard line) :: rest ∧
      Speaks lines rest := by
  cases read : Request.ofLine line with
  | error error =>
    rw [handle_invalid engine session read]
    exact ⟨_, _, rfl, .nil⟩
  | ok found =>
    cases found with
    | none =>
      rw [handle_blank engine session read]
      exact ⟨_, _, rfl, .nil⟩
    | some request =>
      obtain ⟨invocation, invoked, made⟩ := Request.ofLine_eq_some read
      obtain ⟨lines, speaks⟩ := carryOut_speaks aside working request
      rw [handle_valid engine session invoked made]
      exact ⟨_, _, rfl, (remarks_speak invocation).append speaks⟩

end

/-! ### The lines of a run -/

end Session

def Step.error? {State : Type} (step : Step State) : Option LineError :=
  match step.outcome with
  | .error error => some error
  | .ok _ => none

def warned (error : LineError) : Log.Record :=
  Log.Component.dispatch.record .warn error.message

def LineError.line (error : LineError) : String := s!"error {error.message}"

namespace Session

variable {State : Type} {engine : Engine Unit State} {session : Session State}

section
variable (engine session)

def served (line : String) : List Event :=
  let step := session.handle engine line
  step.events ++
    match step.outcome with
    | .ok .quit => [.logged (Log.Component.dispatch.record .info "quit received")]
    | .ok .blank | .ok .handled => []
    | .error error => .logged (warned error) :: step.session.sink.send error.line

theorem serve_eq (bytes : List UInt8) :
    (session.serve engine bytes).session = (session.handle engine (received bytes)).session ∧
      (session.serve engine bytes).events = session.served engine (received bytes) := by
  unfold serve served
  generalize session.handle engine (received bytes) = step
  obtain ⟨next, events, outcome⟩ := step
  cases outcome with
  | ok outcome =>
    cases outcome with
    | quit => exact ⟨rfl, rfl⟩
    | blank | handled => exact ⟨rfl, (List.append_nil _).symm⟩
  | error error => exact ⟨rfl, rfl⟩

end

theorem serveAll_served (fails : Bool) (session : Session State) (lines : List (List UInt8)) :
    (session.serveAll engine fails lines).events =
      (session.met engine (throughQuit (lines.map received))).flatMap fun place =>
        place.1.served engine place.2 := by
  induction lines generalizing session with
  | nil => rfl
  | cons line lines ih =>
    obtain ⟨-, -, quits⟩ := serve_receive engine session line
    obtain ⟨next, events⟩ := serve_eq engine session line
    rw [List.map_cons, serveAll]
    by_cases alone : tokens (received line) = [Command.quit.name]
    · rw [throughQuit_quit alone, if_pos (quits.2 alone), met, met, List.flatMap_singleton]
      exact events
    · rw [throughQuit_other alone, if_neg (fun same => alone (quits.1 same)), met,
        List.flatMap_cons]
      dsimp only
      rw [ih, events, next]

end Session

/-- Events that tell of a line, of all that comes of it, and of the error that answers it. -/
structure Told (line : String) (answer? : Option LineError) (events : List Event) : Prop where
  heard : ∃ rest, events = .logged (heard line) :: rest ∧ Event.noted .dispatch .debug rest = []
  warned : Event.noted .dispatch .warn events = answer?.toList.map UciProtocol.warned
  answered : ∀ error ∈ answer?, ∃ front, events = front ++
    [.logged (UciProtocol.warned error), .logged (Sink.sending error.line),
      .wrote (error.line ++ "\n")]

-- A log that is kept in detail leaves out nothing of what tells of a line.
theorem Told.kept {line : String} {answer? : Option LineError} {events : List Event}
    (told : Told line answer? events) {filter : Log.Filter} (debug : filter.admits .debug = true) :
    Told line answer? (Event.kept filter events) where
  heard := by
    obtain ⟨rest, rfl, unheard⟩ := told.heard
    refine ⟨Event.kept filter rest, Event.kept_logged debug rest, ?_⟩
    rw [Event.noted_kept debug, unheard]
  warned := by
    rw [Event.noted_kept (Log.admits_of_detail debug (by decide)), told.warned]
  answered error failed := by
    obtain ⟨front, rfl⟩ := told.answered error failed
    have warn : filter.admits .warn = true := Log.admits_of_detail debug (by decide)
    refine ⟨Event.kept filter front, ?_⟩
    rw [Event.kept_append, Event.kept_logged warn, Event.kept_logged debug]
    rfl

/-- Events from a log of which the lines of both directions can be told. -/
structure Transcribed (lines : List String) (events : List Event) : Prop where
  sent : ∃ answers, Event.output events = closed answers ∧
    Event.noted .responder .debug events = answers.map Sink.sending
  heard : Event.noted .dispatch .debug events = lines.map heard

namespace Transcribed

theorem nil : Transcribed [] [] := ⟨⟨[], rfl, rfl⟩, rfl⟩

theorem append {front back : List String} {first later : List Event}
    (before : Transcribed front first) (behind : Transcribed back later) :
    Transcribed (front ++ back) (first ++ later) where
  sent := by
    obtain ⟨answers, output, sent⟩ := before.sent
    obtain ⟨others, last, rest⟩ := behind.sent
    refine ⟨answers ++ others, ?_, ?_⟩
    · rw [Event.output_append, output, last, closed_append]
    · rw [Event.noted_append, sent, rest, List.map_append]
  heard := by rw [Event.noted_append, before.heard, behind.heard, List.map_append]

theorem of_speaks {lines : List String} {events : List Event} (speaks : Speaks lines events) :
    Transcribed [] events :=
  ⟨⟨lines, speaks.output, speaks.sent⟩, speaks.unheard .debug⟩

theorem of_heard (line : String) : Transcribed [line] [.logged (UciProtocol.heard line)] :=
  ⟨⟨[], rfl, rfl⟩, rfl⟩

-- A log that is kept in detail leaves out nothing of it.
theorem kept {lines : List String} {events : List Event} (transcribed : Transcribed lines events)
    {filter : Log.Filter} (debug : filter.admits .debug = true) :
    Transcribed lines (Event.kept filter events) where
  sent := by
    obtain ⟨answers, output, sent⟩ := transcribed.sent
    exact ⟨answers, (Event.output_kept filter events).trans output,
      (Event.noted_kept debug .responder events).trans sent⟩
  heard := (Event.noted_kept debug .dispatch events).trans transcribed.heard

theorem output {lines : List String} {events : List Event}
    (transcribed : Transcribed lines events) :
    Event.output events = Log.transcript (Event.records events) := by
  obtain ⟨answers, output, sent⟩ := transcribed.sent
  have each (line : String) :
      String.ofList ((Sink.sending line).message.toList.drop 3) = line := by
    simp [Sink.sending, Log.Component.record, toString, String.toList_append]
  rw [output, Log.transcript]
  rw [Event.noted] at sent
  rw [sent, List.map_map]
  congr 1
  exact (List.map_id'' each answers).symm

theorem sendings {lines : List String} {events : List Event}
    (transcribed : Transcribed lines events) :
    ∀ record ∈ Event.noted .responder .debug events, ∃ line, record = Sink.sending line := by
  obtain ⟨answers, -, sent⟩ := transcribed.sent
  rw [sent]
  intro record member
  obtain ⟨line, -, rfl⟩ := List.mem_map.1 member
  exact ⟨line, rfl⟩

end Transcribed

namespace Session

variable {State : Type} {engine : Engine Unit State} {session : Session State}

theorem handle_sink (line : String) :
    (session.handle engine line).session.sink = session.sink := by
  rcases handle_next engine session line with ⟨request, -, next⟩ | next
  · rw [next, (carryOut_frame engine session request).2]
  · rw [next]

theorem sink_met (lines : List String) :
    ∀ place ∈ session.met engine lines, place.1.sink = session.sink := by
  induction lines generalizing session with
  | nil => exact List.forall_mem_nil _
  | cons line lines ih =>
    refine List.forall_mem_cons.2 ⟨rfl, fun place member => ?_⟩
    rw [ih place member, handle_sink]

section
variable (aside : engine.LogsAside) (working : session.sink = .working)
include aside working

theorem handle_told (line : String) : Told line none (session.handle engine line).events := by
  obtain ⟨rest, lines, events, speaks⟩ := handle_speaks aside working line
  rw [events]
  refine ⟨⟨rest, rfl, speaks.unheard .debug⟩, speaks.unheard .warn, nofun⟩

theorem served_told (line : String) :
    Told line (session.handle engine line).error? (session.served engine line) := by
  obtain ⟨rest, lines, events, speaks⟩ := handle_speaks aside working line
  have works : (session.handle engine line).session.sink = .working :=
    (handle_sink line).trans working
  have unheard {back : List Event} {level : Log.Level}
      (none : Event.noted .dispatch level back = []) :
      Event.noted .dispatch level (rest ++ back) = [] := by
    rw [Event.noted_append, speaks.unheard, none, List.append_nil]
  unfold served Step.error?
  dsimp only
  rw [events, works]
  cases (session.handle engine line).outcome with
  | ok outcome =>
    refine ⟨⟨_, rfl, ?_⟩, ?_, nofun⟩
    · cases outcome <;> exact unheard rfl
    · cases outcome <;> exact unheard rfl
  | error error =>
    refine ⟨⟨_, rfl, unheard rfl⟩, ?_, ?_⟩
    · refine (Event.noted_append .dispatch .warn rest _).trans ?_
      rw [speaks.unheard]
      rfl
    · intro failed same
      cases same
      exact ⟨_, rfl⟩

theorem handle_transcribed (line : String) :
    Transcribed [line] (session.handle engine line).events := by
  obtain ⟨rest, lines, events, speaks⟩ := handle_speaks aside working line
  rw [events]
  exact (Transcribed.of_heard line).append (.of_speaks speaks)

theorem served_transcribed (line : String) : Transcribed [line] (session.served engine line) := by
  have works : (session.handle engine line).session.sink = .working :=
    (handle_sink line).trans working
  have answered (back : List Event) (own : Transcribed [] back) :
      Transcribed [line] ((session.handle engine line).events ++ back) :=
    (handle_transcribed aside working line).append own
  unfold served
  dsimp only
  rw [works]
  cases (session.handle engine line).outcome with
  | ok outcome => cases outcome <;> exact answered _ ⟨⟨[], rfl, rfl⟩, rfl⟩
  | error error =>
    have warned : Transcribed [] [.logged (UciProtocol.warned error)] := ⟨⟨[], rfl, rfl⟩, rfl⟩
    exact answered _ (warned.append (.of_speaks (.send error.line)))

end

end Session

def Feed.lines : Feed → List String
  | line text => [text]
  | request _ => []
  | run source => Session.throughQuit (source.lines.map received)

namespace Session

variable {State : Type} {engine : Engine Unit State} {session : Session State}

/-! ### A whole life -/

theorem serveAll_sink (fails : Bool) (lines : List (List UInt8)) :
    (session.serveAll engine fails lines).session.sink = session.sink := by
  induction lines generalizing session with
  | nil => rfl
  | cons line lines ih =>
    have next : (session.serve engine line).session.sink = session.sink := by
      rw [(serve_eq engine session line).1, handle_sink]
    rw [serveAll]
    by_cases quits : (session.serve engine line).quits = true
    · rw [if_pos quits, next]
    · rw [if_neg quits]
      dsimp only
      rw [ih, next]

theorem take_sink (feed : Feed) : (session.take engine feed).1.sink = session.sink := by
  cases feed with
  | line text => exact handle_sink text
  | request request => exact (carryOut_frame engine session request).2
  | run source =>
    rw [take, run_eq_serveAll]
    exact serveAll_sink source.fails source.lines

theorem takeAll_sink (feeds : List Feed) :
    (session.takeAll engine feeds).1.sink = session.sink := by
  induction feeds generalizing session with
  | nil => rfl
  | cons feed feeds ih => exact ih.trans (take_sink feed)

theorem run_served (source : Source) :
    (session.run engine source).events =
      (session.met engine (throughQuit (source.lines.map received))).flatMap fun place =>
        place.1.served engine place.2 := by
  rw [run_eq_serveAll, serveAll_served]

section
variable (aside : engine.LogsAside)
include aside

theorem met_transcribed (working : session.sink = .working) (lines : List String) :
    Transcribed lines
      ((session.met engine lines).flatMap fun place => place.1.served engine place.2) := by
  induction lines generalizing session with
  | nil => exact .nil
  | cons line lines ih =>
    exact (served_transcribed aside working line).append (ih ((handle_sink line).trans working))

theorem take_transcribed (working : session.sink = .working) (feed : Feed) :
    Transcribed feed.lines (session.take engine feed).2 := by
  cases feed with
  | line text => exact handle_transcribed aside working text
  | request request =>
    obtain ⟨lines, speaks⟩ := carryOut_speaks aside working request
    exact .of_speaks speaks
  | run source =>
    rw [take, run_served]
    exact met_transcribed aside working _

theorem takeAll_transcribed (working : session.sink = .working) (feeds : List Feed) :
    Transcribed (feeds.flatMap Feed.lines) (session.takeAll engine feeds).2 := by
  induction feeds generalizing session with
  | nil => exact .nil
  | cons feed feeds ih =>
    exact (take_transcribed aside working feed).append (ih ((take_sink feed).trans working))

-- An engine speaks of whatever is asked of it, also where its session begins or ends.
theorem react_speaks (working : session.sink = .working) (input : Engine.Input Unit)
    (call : Engine.Call) :
    Transcribed []
      (.called call :: session.heed (engine.react session.engine input).signals) := by
  obtain ⟨lines, speaks⟩ := heed_speaks working (aside session.engine input)
  exact .of_speaks ((Speaks.called call).append speaks)

theorem live_transcribed (working : session.sink = .working) (feeds : List Feed) :
    Transcribed (feeds.flatMap Feed.lines) (session.live engine feeds).2 := by
  have works : (session.start engine).1.sink = .working := working
  have led := takeAll_transcribed aside works feeds
  have last : ((session.start engine).1.takeAll engine feeds).1.sink = .working :=
    (takeAll_sink feeds).trans works
  have life := (react_speaks aside working (.register ()) .register).append
    (led.append (react_speaks aside last .unregister .unregister))
  rwa [List.nil_append, List.append_nil] at life

end

/-- A log that is kept at `debug` or in more detail is a transcript of a session, if its engine does
not write records in the name of others; neither of those at hand does. The lines that the
responder is recorded to send are the output, over the whole life of the session and in each of its
steps; the lines that are recorded as heard are those received. All that comes of a line stands
behind its record and before that of the next one. A line that fails in a run is warned of once,
right before the answer.

Whatever the engine is, a session does the same at any two levels, and so does the program. Of the
records at the higher level, the log has at the lower one those that it admits. -/
theorem log_is_transcript :
    (∀ {State : Type} {engine : Engine Unit State}, engine.LogsAside →
      ∀ {session : Session State}, session.sink = .working →
      ∀ {filter : Log.Filter}, filter.admits .debug = true → ∀ feeds : List Feed,
      let current :=
        (Logged.takeAll filter engine (Logged.start filter engine session).1 feeds).session
      (let life := (Logged.live filter engine session feeds).events
       Event.output life = Log.transcript (Event.records life) ∧
       Event.noted .dispatch .debug life = (feeds.flatMap Feed.lines).map heard) ∧
      (∀ feed,
        let events := (Logged.take filter engine current feed).events
        Event.output events = Log.transcript (Event.records events) ∧
        (∀ record ∈ Event.noted .responder .debug events, ∃ line, record = Sink.sending line) ∧
        Event.noted .dispatch .debug events = feed.lines.map heard) ∧
      (∀ line, Told line none (Logged.handle filter engine current line).events) ∧
      ∀ source,
        let places := current.met engine (throughQuit (source.lines.map received))
        ∃ stretches, (Logged.run filter engine current source).events = stretches.flatten ∧
          List.Forall₂ (fun place stretch =>
            Told place.2 (place.1.handle engine place.2).error? stretch) places stretches) ∧
    ((Idle.engine : Engine Unit (Idle Unit)).LogsAside ∧
      (Scripted.engine : Engine Unit (Scripted Unit)).LogsAside) ∧
    ∀ less more : Log.Filter, (∀ level, less.admits level = true → more.admits level = true) →
      (∀ {State : Type} (engine : Engine Unit State) (session : Session State)
        (feeds : List Feed),
        (Logged.live less engine session feeds).Abridges less
          (Logged.live more engine session feeds)) ∧
      ∀ source : Source,
        (Launch.course less source).2 = (Launch.course more source).2 ∧
        Event.Abridges less (Launch.course less source).1 (Launch.course more source).1 := by
  refine ⟨fun {State engine} aside {session} working {filter} debug feeds => ?_,
    ⟨Idle.logsAside, Scripted.logsAside⟩, fun less more within => ⟨?_, ?_⟩⟩
  · intro current
    have same : current = ((session.start engine).1.takeAll engine feeds).1 := by
      rw [← (Logged.takeAll_eq filter engine (session.start engine).1 feeds).1]
      exact congrArg (fun begun => (Logged.takeAll filter engine begun.1 feeds).session)
        (Logged.start_eq filter engine session)
    have works : current.sink = .working :=
      (congrArg Session.sink same).trans ((takeAll_sink feeds).trans working)
    refine ⟨?_, fun feed => ?_, fun line => ?_, fun source => ?_⟩
    · intro life
      have transcribed := (live_transcribed aside working feeds).kept debug
      rw [← (Logged.live_eq filter engine session feeds).2] at transcribed
      exact ⟨transcribed.output, transcribed.heard⟩
    · intro events
      have transcribed := (take_transcribed aside works feed).kept debug
      rw [← (Logged.take_eq filter engine current feed).2] at transcribed
      exact ⟨transcribed.output, transcribed.sendings, transcribed.heard⟩
    · rw [Logged.handle_eq]
      exact (handle_told aside works line).kept debug
    · intro places
      refine ⟨places.map fun place => Event.kept filter (place.1.served engine place.2), ?_, ?_⟩
      · rw [Logged.run_eq, Run.kept, run_served, Event.kept_flatMap, List.flatMap_def]
      · rw [List.forall₂_map_right_iff, List.forall₂_same]
        intro place member
        have open_sink : place.1.sink = .working := (sink_met _ place member).trans works
        exact (served_told aside open_sink place.2).kept debug
  · intro State engine session feeds
    exact Logged.live_abridges within engine session feeds
  · intro source
    rw [Launch.course_eq, Launch.course_eq]
    exact ⟨rfl, Event.abridges_kept within _⟩

-- The source comes in two pieces, and its last line is not read.
theorem hears_lines_of_run :
    let session : Session (Idle Unit) := ⟨{}, {}, .working⟩
    let source : Source := ⟨["go depth x\nqu".toList.map (·.toNat.toUInt8),
      "it\nuci\n".toList.map (·.toNat.toUInt8)], false⟩
    let brief := Logged.live (.upTo .info) Idle.engine session [.line "isready", .run source]
    let full := Logged.live (.upTo .debug) Idle.engine session [.line "isready", .run source]
    (Idle.engine : Engine Unit (Idle Unit)).LogsAside ∧ session.sink = .working ∧
      (Log.Filter.upTo .debug).admits .debug = true ∧
      Event.output full.events = Log.transcript (Event.records full.events) ∧
      Event.noted .dispatch .debug full.events =
        [heard "isready", heard "go depth x", heard "quit"] ∧
      brief.session = full.session ∧
      Event.records brief.events =
        (Event.records full.events).filter ((Log.Filter.upTo .info).admits ·.level) := by
  intro session source brief full
  obtain ⟨transcripts, ⟨aside, -⟩, levels⟩ := log_is_transcript
  have working : session.sink = .working := rfl
  have debug : (Log.Filter.upTo .debug).admits .debug = true := rfl
  obtain ⟨⟨output, received⟩, -⟩ :=
    transcripts aside working debug [.line "isready", .run source]
  have within : ∀ level, (Log.Filter.upTo .info).admits level = true →
      (Log.Filter.upTo .debug).admits level = true := by
    intro level
    cases level <;> decide
  have abridges := (levels _ _ within).1 Idle.engine session [.line "isready", .run source]
  exact ⟨aside, working, debug, output, received.trans (by decide), abridges.session,
    abridges.events.records⟩

/-- An engine that logs as if it were the responder. -/
def forger : Engine Unit Unit where
  obey _ _ := .done () [.log (Sink.sending "uciok")]
  notify _ _ := ((), [])
  register _ _ := ((), [])
  unregister _ := ((), [])

theorem forged_log_is_no_transcript :
    let life := (Logged.live (.upTo .debug) forger { engine := (), settings := {} }
      [.line "ucinewgame"]).events
    let records (level : Log.Level) : List Log.Record :=
      Event.records
        (Launch.transcript { logFile := some "log", filter := .upTo level } ⟨[], false⟩).1
    Event.output life ≠ Log.transcript (Event.records life) ∧
    records .info ≠ (records .debug).filter ((Log.Filter.upTo .info).admits ·.level) := by
  intro life records
  have told : Event.records (Launch.told ⟨[], false⟩).1 = [Launch.closing] := by
    simp only [Launch.told, run_eq_serveAll]
    rfl
  simp only [records, Launch.records_transcript, told]
  decide

end Session

end UciProtocol
