import UciProtocol.Proofs.EngineCalls
import UciProtocol.Session.Logged

/-! Sessions and their logs.

A session that writes a log does what it does without regard to the log. Each part of it gives what
the session that tells of everything gives, less the records that the log does not admit.
-/

set_option autoImplicit false

namespace UciProtocol

namespace Event

/-- What is left of events where a log leaves out records. -/
def kept (filter : Log.Filter) (events : List Event) : List Event :=
  events.filter fun | logged record => filter.admits record.level | wrote _ | called _ => true

theorem kept_append (filter : Log.Filter) (front back : List Event) :
    kept filter (front ++ back) = kept filter front ++ kept filter back :=
  List.filter_append front back

theorem kept_logged {filter : Log.Filter} {record : Log.Record}
    (admits : filter.admits record.level = true) (events : List Event) :
    kept filter (logged record :: events) = logged record :: kept filter events :=
  List.filter_cons_of_pos admits

theorem kept_cons_logged (filter : Log.Filter) (record : Log.Record) (events : List Event) :
    kept filter (logged record :: events) = filter.note record ++ kept filter events := by
  unfold Log.Filter.note
  split
  next admits => exact kept_logged admits events
  next other => exact List.filter_cons_of_neg other

theorem kept_singleton (filter : Log.Filter) (record : Log.Record) :
    kept filter [logged record] = filter.note record :=
  (kept_cons_logged filter record []).trans (List.append_nil _)

theorem kept_flatMap {α : Type} (filter : Log.Filter) (items : List α)
    (events : α → List Event) :
    kept filter (items.flatMap events) = items.flatMap fun item => kept filter (events item) := by
  induction items with
  | nil => rfl
  | cons item items ih =>
    rw [List.flatMap_cons, kept_append, ih]
    rfl

theorem kept_records {α : Type} (filter : Log.Filter) (items : List α)
    (record : α → Log.Record) :
    kept filter (items.map fun item => .logged (record item)) =
      items.flatMap fun item => filter.note (record item) := by
  induction items with
  | nil => rfl
  | cons item items ih =>
    rw [List.map_cons, kept_cons_logged, ih]
    rfl

theorem records_kept (filter : Log.Filter) (events : List Event) :
    records (kept filter events) = Log.kept filter (records events) := by
  induction events with
  | nil => rfl
  | cons event events ih =>
    have each : records (kept filter [event]) = Log.kept filter (records [event]) := by
      cases event with
      | logged record =>
        cases admits : filter.admits record.level <;> simp [kept, records, Log.kept, admits]
      | wrote | called => rfl
    have apart : event :: events = [event] ++ events := rfl
    rw [apart, kept_append, records_append, records_append, Log.kept, List.filter_append]
    exact congrArg₂ (· ++ ·) each ih

theorem output_kept (filter : Log.Filter) (events : List Event) :
    output (kept filter events) = output events := by
  unfold output kept
  rw [List.filterMap_filter]
  congr 2
  funext event
  cases event with
  | logged record => exact ite_self none
  | wrote | called => rfl

theorem calls_kept (filter : Log.Filter) (events : List Event) :
    calls (kept filter events) = calls events := by
  unfold calls kept
  rw [List.filterMap_filter]
  congr 1
  funext event
  cases event with
  | logged record => exact ite_self none
  | wrote | called => rfl

end Event

/-! ### What is kept of a session -/

def Step.kept {State : Type} (filter : Log.Filter) (step : Step State) : Step State :=
  { step with events := Event.kept filter step.events }

def Served.kept {State : Type} (filter : Log.Filter) (served : Served State) : Served State :=
  { served with events := Event.kept filter served.events }

def Run.kept {State : Type} (filter : Log.Filter) (run : Run State) : Run State :=
  { run with events := Event.kept filter run.events }

namespace Logged

variable (filter : Log.Filter)

theorem send_eq (sink : Sink) (line : String) :
    send filter sink line = Event.kept filter (sink.send line) := by
  rw [send, Sink.send, Event.kept_cons_logged, Event.kept_append, Event.kept_records]
  congr 2
  split <;> rfl

theorem sendAll_eq (sink : Sink) (lines : List String) :
    sendAll filter sink lines = Event.kept filter (sink.sendAll lines) := by
  rw [sendAll, Sink.sendAll, Event.kept_flatMap]
  exact congrArg (List.flatMap · lines) (funext (send_eq filter sink))

variable {State : Type} (engine : Engine Unit State) (session : Session State)

theorem heed_eq (signals : List (Engine.Signal Unit)) :
    heed filter session signals = Event.kept filter (session.heed signals) := by
  rw [heed, Session.heed, Event.kept_flatMap]
  congr 1
  funext signal
  cases signal with
  | report responder report => exact sendAll_eq filter session.sink _
  | log record => exact (Event.kept_singleton filter record).symm

theorem start_eq : start filter engine session =
    ((session.start engine).1, Event.kept filter (session.start engine).2) := by
  simp only [start, heed_eq]
  rfl

theorem finish_eq : finish filter engine session =
    ((session.finish engine).1, Event.kept filter (session.finish engine).2) := by
  simp only [finish, heed_eq]
  rfl

theorem order_eq (order : Engine.Order) (answer : List String) :
    Logged.order filter engine session order answer =
      (session.order engine order answer).kept filter := by
  unfold Logged.order Session.order
  cases engine.obey session.engine order with
  | done state signals =>
    simp only [heed_eq, sendAll_eq, ← Event.kept_append]
    rfl
  | refused state signals refusal =>
    simp only [heed_eq]
    rfl

theorem notify_eq (notice : Engine.Notice) :
    notify filter engine session notice = (session.notify engine notice).kept filter := by
  simp only [notify, heed_eq]
  rfl

theorem answer_eq (lines : List String) :
    answer filter session lines = (session.answer lines).kept filter := by
  rw [answer, sendAll_eq]
  rfl

theorem assign_eq (assignment : Assignment) :
    assign filter session assignment = (session.assign assignment).kept filter := by
  unfold assign Session.assign
  cases session.settings.change assignment with
  | error error => rfl
  | ok change => simp only [Step.kept, Event.kept_singleton]

theorem carryOut_eq (request : Request) :
    carryOut filter engine session request = (session.carryOut engine request).kept filter := by
  cases request with
  | uci | xyzzy => exact answer_eq filter session _
  | isReady | newGame | position | go => exact order_eq filter engine session _ _
  | setOption assignment => exact assign_eq filter session assignment
  | stop | ponderHit => exact notify_eq filter engine session _
  | quit => rfl

theorem remarks_eq (invocation : Invocation) :
    remarks filter invocation = Event.kept filter (Session.remarks invocation) := by
  obtain ⟨command, arguments⟩ := invocation
  cases command with
  | position => exact (Event.kept_records filter _ _).symm
  | uci | isReady | setOption | newGame | go | stop | ponderHit | quit | xyzzy => rfl

theorem handle_eq (line : String) :
    handle filter engine session line = (session.handle engine line).kept filter := by
  have alone : filter.note (heard line) = Event.kept filter [.logged (heard line)] :=
    (Event.kept_singleton filter (heard line)).symm
  unfold handle Session.handle
  cases Invocation.ofLine line with
  | error error => exact congrArg (Step.mk session · _) alone
  | ok found =>
    cases found with
    | none => exact congrArg (Step.mk session · _) alone
    | some invocation =>
      dsimp only
      cases Request.ofInvocation invocation with
      | error error => exact congrArg (Step.mk session · _) alone
      | ok request =>
        simp only [carryOut_eq, remarks_eq]
        simp only [Step.kept, ← Event.kept_append, Event.kept_cons_logged]

theorem serve_eq (bytes : List UInt8) :
    serve filter engine session bytes = (session.serve engine bytes).kept filter := by
  unfold serve Session.serve
  rw [handle_eq]
  generalize session.handle engine (Text.received bytes) = step
  obtain ⟨next, events, outcome⟩ := step
  cases outcome with
  | ok outcome =>
    cases outcome with
    | blank | handled => rfl
    | quit =>
      simp only [Step.kept, Served.kept, Event.kept_append, Event.kept_singleton]
  | error error =>
    simp only [Step.kept, Served.kept, Event.kept_append, Event.kept_cons_logged, send_eq]

theorem run_line {source rest : Source} {bytes : List UInt8}
    (line : source.read = .line bytes rest) :
    run filter engine session source =
      if (session.serve engine bytes).quits then
        ⟨(session.serve engine bytes).session,
          Event.kept filter (session.serve engine bytes).events, .finished⟩
      else
        let later := run filter engine (session.serve engine bytes).session rest
        { later with
          events := Event.kept filter (session.serve engine bytes).events ++ later.events } := by
  rw [run]
  split
  next ended => cases line.symm.trans ended
  next failed => cases line.symm.trans failed
  next other left again =>
    cases line.symm.trans again
    simp only [serve_eq, Served.kept]

theorem run_eq (source : Source) :
    run filter engine session source = (session.run engine source).kept filter := by
  -- Along the run that tells of everything: both read the same lines off the source.
  fun_induction Session.run engine session source with
  | case1 session source ended =>
    rw [run]
    split
    next => rfl
    next failed => cases ended.symm.trans failed
    next bytes rest line => cases ended.symm.trans line
  | case2 session source failed =>
    rw [run]
    split
    next ended => cases failed.symm.trans ended
    next => rfl
    next bytes rest line => cases failed.symm.trans line
  | case3 session source bytes rest line served quits =>
    rw [run_line filter engine session line, if_pos quits]
    rfl
  | case4 session source bytes rest line served other later ih =>
    rw [run_line filter engine session line, if_neg other, ih]
    simp only [Run.kept, Event.kept_append, served, later]

theorem take_eq (feed : Feed) :
    (take filter engine session feed).session = (session.take engine feed).1 ∧
      (take filter engine session feed).events =
        Event.kept filter (session.take engine feed).2 := by
  cases feed with
  | line text =>
    rw [take, handle_eq]
    exact ⟨rfl, rfl⟩
  | request request =>
    rw [take, carryOut_eq]
    exact ⟨rfl, rfl⟩
  | run source =>
    rw [take, run_eq]
    exact ⟨rfl, rfl⟩

theorem takeAll_eq (feeds : List Feed) :
    (takeAll filter engine session feeds).session = (session.takeAll engine feeds).1 ∧
      (takeAll filter engine session feeds).events =
        Event.kept filter (session.takeAll engine feeds).2 := by
  induction feeds generalizing session with
  | nil => exact ⟨rfl, rfl⟩
  | cons feed feeds ih =>
    obtain ⟨next, here⟩ := take_eq filter engine session feed
    obtain ⟨last, later⟩ := ih (session.take engine feed).1
    rw [takeAll, next, Session.takeAll, Event.kept_append]
    exact ⟨last, congrArg₂ (· ++ ·) here later⟩

theorem live_eq (feeds : List Feed) :
    (live filter engine session feeds).session = (session.live engine feeds).1 ∧
      (live filter engine session feeds).events =
        Event.kept filter (session.live engine feeds).2 := by
  obtain ⟨last, later⟩ := takeAll_eq filter engine (session.start engine).1 feeds
  rw [live, start_eq, finish_eq]
  dsimp only
  rw [last, later, ← Event.kept_append, ← Event.kept_append]
  exact ⟨rfl, rfl⟩

end Logged

/-! ### Two logs of one session -/

/-- What is seen with one log and with another, in which there is more: the first has, of the
records in the second, just those that its filter admits. -/
structure Event.Abridges (filter : Log.Filter) (brief full : List Event) : Prop where
  output : output brief = output full
  calls : calls brief = calls full
  records : records brief = (records full).filter (filter.admits ·.level)

structure Taken.Abridges {State : Type} (filter : Log.Filter) (brief full : Taken State) :
    Prop where
  session : brief.session = full.session
  conclusion : brief.conclusion = full.conclusion
  events : Event.Abridges filter brief.events full.events

structure Stretch.Abridges {State : Type} (filter : Log.Filter) (brief full : Stretch State) :
    Prop where
  session : brief.session = full.session
  events : Event.Abridges filter brief.events full.events
  taken : List.Forall₂ (Taken.Abridges filter) brief.taken full.taken

section
variable {less more : Log.Filter}
  (within : ∀ level, less.admits level = true → more.admits level = true)
include within

-- What the lower filter admits, the higher one does.
theorem Log.kept_kept (records : List Record) :
    kept less records = (kept more records).filter (less.admits ·.level) := by
  rw [kept, kept, List.filter_filter]
  apply List.filter_congr
  intro record _
  rw [Bool.eq_self_and]
  exact within record.level

theorem Event.abridges_kept (events : List Event) :
    Abridges less (kept less events) (kept more events) where
  output := by rw [output_kept, output_kept]
  calls := by rw [calls_kept, calls_kept]
  records := by rw [records_kept, records_kept, Log.kept_kept within]

namespace Logged

variable {State : Type} (engine : Engine Unit State) (session : Session State)

theorem take_abridges (feed : Feed) :
    (take less engine session feed).Abridges less (take more engine session feed) := by
  cases feed with
  | line text =>
    simp only [take, handle_eq]
    exact ⟨rfl, rfl, Event.abridges_kept within _⟩
  | request request =>
    simp only [take, carryOut_eq]
    exact ⟨rfl, rfl, Event.abridges_kept within _⟩
  | run source =>
    simp only [take, run_eq]
    exact ⟨rfl, rfl, Event.abridges_kept within _⟩

theorem takeAll_taken (feeds : List Feed) :
    List.Forall₂ (Taken.Abridges less) (takeAll less engine session feeds).taken
      (takeAll more engine session feeds).taken := by
  induction feeds generalizing session with
  | nil => exact .nil
  | cons feed feeds ih =>
    have here := take_abridges within engine session feed
    rw [takeAll, takeAll, here.session]
    exact .cons here (ih _)

theorem live_abridges (feeds : List Feed) :
    (live less engine session feeds).Abridges less (live more engine session feeds) := by
  obtain ⟨brief, seen⟩ := live_eq less engine session feeds
  obtain ⟨full, told⟩ := live_eq more engine session feeds
  refine ⟨brief.trans full.symm, ?_, ?_⟩
  · rw [seen, told]
    exact Event.abridges_kept within _
  · rw [live, live, start_eq, start_eq]
    exact takeAll_taken within engine _ feeds

end Logged

end

end UciProtocol
