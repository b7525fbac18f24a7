import UciProtocol.Output
import UciProtocol.Request
import UciProtocol.Settings

/-! A session: an engine driven by the lines of a GUI.

A line is checked as a whole before any of it is carried out. A line that fails is answered with
its error, and the session goes on. -/

set_option autoImplicit false

namespace UciProtocol

inductive LineError where
  | request (error : RequestError)
  | setting (error : Setting.Error)
  | engine (refusal : Engine.Refusal)
  deriving DecidableEq, Repr

def LineError.message : LineError → String
  | request error => error.message
  | setting error => error.message
  | engine refusal => refusal.message

inductive Outcome where
  | blank
  | handled
  | quit
  deriving DecidableEq, Repr

structure Session (State : Type) where
  engine : State
  settings : Settings
  sink : Sink := .working
  deriving DecidableEq, Repr

/-- One step of a session: where it leads, what is seen of it, and how it ends. -/
structure Step (State : Type) where
  session : Session State
  events : List Event
  outcome : Except LineError Outcome

namespace Session

variable {State : Type} (engine : Engine Unit State) (session : Session State)

def heed (signals : List (Engine.Signal Unit)) : List Event :=
  signals.flatMap (·.events session.settings.display session.sink)

def start : Session State × List Event :=
  let (state, signals) := engine.register session.engine ()
  ({ session with engine := state }, .called .register :: session.heed signals)

def finish : Session State × List Event :=
  let (state, signals) := engine.unregister session.engine
  ({ session with engine := state }, .called .unregister :: session.heed signals)

def order (order : Engine.Order) (answer : List String) : Step State :=
  match engine.obey session.engine order with
  | .done state signals =>
    ⟨{ session with engine := state },
      .called (.order order) :: (session.heed signals ++ session.sink.sendAll answer),
      .ok .handled⟩
  | .refused state signals refusal =>
    ⟨{ session with engine := state }, .called (.order order) :: session.heed signals,
      .error (.engine refusal)⟩

def notify (notice : Engine.Notice) : Step State :=
  let (state, signals) := engine.notify session.engine notice
  ⟨{ session with engine := state }, .called (.notice notice) :: session.heed signals, .ok .handled⟩

def answer (lines : List String) : Step State :=
  ⟨session, session.sink.sendAll lines, .ok .handled⟩

def assign (assignment : Assignment) : Step State :=
  match session.settings.change assignment with
  | .ok change =>
    ⟨{ session with settings := session.settings.apply change }, [.logged change.record],
      .ok .handled⟩
  | .error error => ⟨session, [], .error (.setting error)⟩

def carryOut : Request → Step State
  | .uci => session.answer (identity ++ session.settings.lines ++ ["uciok"])
  | .isReady => session.order engine .getReady ["readyok"]
  | .setOption assignment => session.assign assignment
  | .newGame => session.order engine .newGame []
  | .position position => session.order engine (.setPosition position.fen position.moves) []
  | .go search => session.order engine (.go search) []
  | .stop => session.notify engine .stop
  | .ponderHit => session.notify engine .ponderHit
  | .quit => ⟨session, [], .ok .quit⟩
  | .xyzzy => session.answer ["Nothing happens."]

/-- What is remarked on a valid invocation: words that do no good. -/
def remarks (invocation : Invocation) : List Event :=
  match invocation.command with
  | .position =>
    (Position.ignored? invocation.arguments).toList.map fun text =>
      .logged (Log.Component.request.record .warn s!"ignoring tokens after startpos: {text}")
  | _ => []

def handle (line : String) : Step State :=
  let heard := Event.logged (Log.Component.dispatch.record .debug s!">> {line}")
  match Invocation.ofLine line with
  | .error error => ⟨session, [heard], .error (.request error)⟩
  | .ok none => ⟨session, [heard], .ok .blank⟩
  | .ok (some invocation) =>
    match Request.ofInvocation invocation with
    | .error error => ⟨session, [heard], .error (.request error)⟩
    | .ok request =>
      -- Only from here on can the line have an effect.
      let step := session.carryOut engine request
      { step with events := heard :: (remarks invocation ++ step.events) }

end Session

end UciProtocol
