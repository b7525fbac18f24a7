import Mathlib.Data.List.Induction
import UciProtocol.Engine.Idle
import UciProtocol.Proofs.Handling
import UciProtocol.Proofs.ReportLines

/-! Outputs that fail for a time.

An output may begin to refuse what it is given, and stop refusing it, between any two operations of
a responder. A line that fails is lost and nothing else is: every line is tried, and the settings
and all that is put out later are those of a course in which nothing fails.
-/

set_option autoImplicit false

namespace UciProtocol

open Text

structure Faults where
  write : Bool := false
  flush : Bool := false
  deriving DecidableEq, Repr

namespace Faults

variable (faults : Faults)

def sink : Sink := .ofFailures faults.write faults.flush

def cause? : Option String :=
  if faults.write then some "write refused"
  else if faults.flush then some "flush refused"
  else none

theorem failure?_sink : faults.sink.failure? = faults.cause? := by
  rcases faults with ⟨_ | _, _ | _⟩ <;> rfl

theorem sink_refusingWrites_iff : faults.sink = .refusingWrites ↔ faults.write = true := by
  rcases faults with ⟨_ | _, _ | _⟩ <;> decide

end Faults

inductive Operation where
  | assign (assignment : Assignment)
  | refuse (faults : Faults)
  | report (report : Report)
  | raw (lines : List String)
  | identify
  deriving DecidableEq, Repr

namespace Operation

/-- The operation in a course in which nothing fails. -/
def mended : Operation → Operation
  | refuse _ => refuse {}
  | operation => operation

def lines (display : Display) : Operation → List String
  | assign _ | refuse _ => []
  | report said => said.lines display
  | raw lines => lines
  | identify => identity

def notes (settings : Settings) : Operation → List Log.Record
  | assign assignment => (settings.change assignment).toOption.toList.map Settings.Change.record
  | refuse _ | report _ | raw _ | identify => []

def faults? : Operation → Option Faults
  | refuse faults => some faults
  | assign _ | report _ | raw _ | identify => none

def faults (operations : List Operation) : Faults :=
  (operations.filterMap faults?).getLast?.getD {}

variable (operation : Operation) (operations : List Operation)

theorem lines_mended (display : Display) :
    operation.mended.lines display = operation.lines display := by
  cases operation <;> rfl

theorem notes_mended (settings : Settings) :
    operation.mended.notes settings = operation.notes settings := by
  cases operation <;> rfl

theorem faults_concat :
    faults (operations ++ [operation]) = operation.faults?.getD (faults operations) := by
  rw [faults, faults, List.filterMap_append]
  cases refused : operation.faults? <;> simp [refused]

theorem faults_mended : faults (operations.map mended) = {} := by
  induction operations using List.reverseRecOn with
  | nil => rfl
  | append_singleton operations operation ih =>
    rw [List.map_append, List.map_singleton, faults_concat, ih]
    cases operation <;> rfl

end Operation

/-! ### Lines on a failing output -/

theorem Sink.sendAll_cons (sink : Sink) (line : String) (lines : List String) :
    sink.sendAll (line :: lines) = sink.send line ++ sink.sendAll lines := rfl

namespace Event

theorem records_logged (notes : List Log.Record) : records (notes.map .logged) = notes := by
  simp [records, List.filterMap_map]

theorem output_logged (notes : List Log.Record) : output (notes.map .logged) = "" := by
  simp [output, List.filterMap_map]

-- Either all of the lines are written or none.
theorem output_sendAll_sink (sink : Sink) (lines : List String) :
    output (sink.sendAll lines) = if sink = .refusingWrites then "" else closed lines := by
  induction lines with
  | nil => cases sink <;> rfl
  | cons line lines ih =>
    have first : output (sink.send line) =
        if sink = .refusingWrites then "" else line ++ "\n" := by
      cases sink <;> simp [output, Sink.send, Sink.failure?]
    rw [Sink.sendAll_cons, output_append, first, ih]
    split
    · rfl
    · simp [closed]

theorem records_sendAll (sink : Sink) (lines : List String) :
    records (sink.sendAll lines) = lines.flatMap fun line =>
      Sink.sending line :: sink.failure?.toList.map (Sink.failed line) := by
  induction lines with
  | nil => rfl
  | cons line lines ih =>
    have first : records (sink.send line) =
        Sink.sending line :: sink.failure?.toList.map (Sink.failed line) := by
      cases sink <;> rfl
    rw [Sink.sendAll_cons, records_append, first, ih, List.flatMap_cons]

end Event

namespace Session

variable {State : Type} (session : Session State)

/-! ### Operations one by one -/

def perform : Operation → Step State
  | .assign assignment => session.assign assignment
  | .refuse faults => ⟨{ session with sink := faults.sink }, [], .ok .handled⟩
  | .report report => ⟨session, session.heed [.report () report], .ok .handled⟩
  | .raw lines => session.answer lines
  | .identify => session.answer identity

def performed (operations : List Operation) : Session State :=
  operations.foldl (fun session operation => (session.perform operation).session) session

def performing (session : Session State) : List Operation → List Event
  | [] => []
  | operation :: operations =>
    let step := session.perform operation
    step.events ++ performing step.session operations

theorem heed_report (report : Report) :
    session.heed [.report () report] =
      session.sink.sendAll (report.lines session.settings.display) :=
  List.append_nil _

theorem perform_events (operation : Operation) :
    (session.perform operation).events =
      (operation.notes session.settings).map .logged ++
        session.sink.sendAll (operation.lines session.settings.display) := by
  cases operation with
  | assign assignment =>
    rw [Operation.notes, perform]
    rcases session.assign_cases assignment with ⟨change, valid, step⟩ | ⟨error, wrong, step⟩
    · rw [step, valid]
      rfl
    · rw [step, wrong]
      rfl
  | report report => exact heed_report session report
  | refuse | raw | identify => rfl

theorem perform_sink (operation : Operation) :
    (session.perform operation).session.sink =
      (operation.faults?.map (·.sink)).getD session.sink := by
  cases operation with
  | assign assignment =>
    rw [perform]
    rcases session.assign_cases assignment with ⟨change, _, step⟩ | ⟨error, _, step⟩
    all_goals
      rw [step]
      rfl
  | refuse | report | raw | identify => rfl

/-- Sessions that differ in nothing but their outputs. -/
structure Akin (session other : Session State) : Prop where
  engine : session.engine = other.engine
  settings : session.settings = other.settings

theorem Akin.eq {session other : Session State} (akin : Akin session other)
    (sink : session.sink = other.sink) : session = other := by
  cases session
  cases other
  obtain ⟨rfl, rfl⟩ := akin
  cases sink
  rfl

-- What an output refuses has no bearing on what an operation comes to.
theorem Akin.perform {session other : Session State} (akin : Akin session other)
    (operation : Operation) :
    Akin (session.perform operation).session (other.perform operation.mended).session ∧
      (session.perform operation).outcome = (other.perform operation.mended).outcome := by
  cases operation with
  | assign assignment =>
    dsimp only [Session.perform, Operation.mended, assign]
    rw [akin.settings]
    cases other.settings.change assignment with
    | ok change => exact ⟨⟨akin.engine, rfl⟩, rfl⟩
    | error error => exact ⟨akin, rfl⟩
  | refuse | report | raw | identify => exact ⟨⟨akin.engine, akin.settings⟩, rfl⟩

/-! ### Operations in turn -/

variable (operations : List Operation)

theorem performed_concat (operation : Operation) :
    session.performed (operations ++ [operation]) =
      ((session.performed operations).perform operation).session := by
  rw [performed, List.foldl_append]
  rfl

theorem performed_akin :
    Akin (session.performed operations) (session.performed (operations.map .mended)) := by
  induction operations using List.reverseRecOn with
  | nil => exact ⟨rfl, rfl⟩
  | append_singleton operations operation ih =>
    rw [List.map_append, List.map_singleton, performed_concat, performed_concat]
    exact (ih.perform operation).1

-- An output refuses what it was last told to refuse.
theorem performed_sink (working : session.sink = .working) :
    (session.performed operations).sink = (Operation.faults operations).sink := by
  induction operations using List.reverseRecOn with
  | nil => exact working
  | append_singleton operations operation ih =>
    rw [performed_concat, perform_sink, ih, Operation.faults_concat]
    cases operation.faults? <;> rfl

theorem performed_mended_sink (working : session.sink = .working) :
    (session.performed (operations.map .mended)).sink = .working := by
  rw [performed_sink session _ working, Operation.faults_mended]
  rfl

/-- What is reported at once is put out as if it was reported one by one. -/
theorem performing_progress (reports : List Progress) :
    session.performing [.report (.progress reports)] =
      session.performing (reports.map fun report => .report (.progress [report])) := by
  have batch : session.performing [.report (.progress reports)] =
      session.sink.sendAll (reports.map (·.line session.settings.display)) :=
    (List.append_nil _).trans (session.heed_report _)
  rw [batch]
  clear batch
  induction reports with
  | nil => rfl
  | cons report reports ih =>
    rw [List.map_cons, List.map_cons, Sink.sendAll_cons, ih, performing, perform, heed_report]
    exact congrArg (· ++ _) (Sink.sendAll_singleton _ _).symm

/-- In any course of operations, whatever the output refuses from when to when, the settings and
what becomes of assignments are those of the course in which it refuses nothing. Nothing is written
by an operation while writing is refused; otherwise all of its lines are. Each line is logged, and
logged as failed if the output refuses anything. Once nothing is refused any more, all goes on as if
nothing had been. -/
theorem failing_output_loses_only_lines (operation : Operation) :
    let start := { session with sink := .working }
    let current := start.performed operations
    let mended := start.performed (operations.map .mended)
    let step := current.perform operation
    let other := mended.perform operation.mended
    let lines := operation.lines mended.settings.display
    let faults := Operation.faults operations
    (current.settings = mended.settings ∧ step.session.settings = other.session.settings ∧
      step.outcome = other.outcome) ∧
    Event.output other.events = closed lines ∧
    Event.output step.events = (if faults.write then "" else closed lines) ∧
    Event.records step.events = operation.notes mended.settings ++ lines.flatMap (fun line =>
      Sink.sending line :: faults.cause?.toList.map (Sink.failed line)) ∧
    (∀ later, (start.performed (operations ++ [.refuse {}])).performing later =
      mended.performing later) ∧
    ∀ reports, current.performing [.report (.progress reports)] =
      current.performing (reports.map fun report => .report (.progress [report])) := by
  intro start current mended step other lines faults
  have akin : Akin current mended := performed_akin start operations
  have next := akin.perform operation
  have sink : current.sink = faults.sink := performed_sink start operations rfl
  have works : mended.sink = .working := performed_mended_sink start operations rfl
  have seen : step.events =
      (operation.notes mended.settings).map .logged ++ faults.sink.sendAll lines := by
    rw [← sink, perform_events, akin.settings]
  have unharmed : other.events =
      (operation.notes mended.settings).map .logged ++ Sink.working.sendAll lines := by
    rw [← works, perform_events, Operation.notes_mended, Operation.lines_mended]
  refine ⟨⟨akin.settings, next.1.settings, next.2⟩, ?_, ?_, ?_, fun later => ?_,
    current.performing_progress⟩
  · rw [unharmed, Event.output_append, Event.output_logged, Event.output_sendAll]
    exact String.empty_append
  · rw [seen, Event.output_append, Event.output_logged, Event.output_sendAll_sink]
    simp only [faults.sink_refusingWrites_iff, String.empty_append]
  · rw [seen, Event.records_append, Event.records_logged, Event.records_sendAll,
      faults.failure?_sink]
  · have restored : start.performed (operations ++ [.refuse {}]) = mended := by
      rw [performed_concat]
      exact Akin.eq ⟨akin.engine, akin.settings⟩ works.symm
    rw [restored]

example :
    Event.output ((⟨{}, {}, .working⟩ : Session (Idle Unit)).performing
      [.refuse ⟨true, true⟩, .identify, .refuse ⟨false, true⟩, .raw ["a", "b"], .refuse {},
        .raw ["c"]]) = "a\nb\nc\n" := by
  decide

end Session

end UciProtocol
