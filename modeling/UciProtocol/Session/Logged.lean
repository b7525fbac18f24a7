import UciProtocol.Session.Run

/-! Sessions that write a log.

A session hands its records to a log as it goes, and the log keeps those that its filter admits.
What a session does otherwise, it does as one that tells of everything. -/

set_option autoImplicit false

namespace UciProtocol

def Log.Filter.note (filter : Log.Filter) (record : Log.Record) : List Event :=
  if filter.admits record.level then [.logged record] else []

inductive Feed where
  | line (text : String)
  | request (request : Request)
  | run (source : Source)
  deriving DecidableEq, Repr

inductive Conclusion where
  | line (outcome : Except LineError Outcome)
  | run (ending : Ending)

structure Taken (State : Type) where
  session : Session State
  events : List Event
  conclusion : Conclusion

/-- A stretch in the life of a session, and all that it is given in it. -/
structure Stretch (State : Type) where
  session : Session State
  events : List Event
  taken : List (Taken State)

namespace Logged

variable (filter : Log.Filter)

def send (sink : Sink) (line : String) : List Event :=
  filter.note (Sink.sending line) ++
    ((if sink = .refusingWrites then [] else [.wrote (line ++ "\n")]) ++
      sink.failure?.toList.flatMap fun cause => filter.note (Sink.failed line cause))

def sendAll (sink : Sink) (lines : List String) : List Event := lines.flatMap (send filter sink)

variable {State : Type} (engine : Engine Unit State) (session : Session State)

def heed (signals : List (Engine.Signal Unit)) : List Event :=
  signals.flatMap fun
    | .report _ said => sendAll filter session.sink (said.lines session.settings.display)
    | .log record => filter.note record

def start : Session State × List Event :=
  let (state, signals) := engine.register session.engine ()
  ({ session with engine := state }, .called .register :: heed filter session signals)

def finish : Session State × List Event :=
  let (state, signals) := engine.unregister session.engine
  ({ session with engine := state }, .called .unregister :: heed filter session signals)

def order (order : Engine.Order) (answer : List String) : Step State :=
  match engine.obey session.engine order with
  | .done state signals =>
    ⟨{ session with engine := state },
      .called (.order order) :: (heed filter session signals ++ sendAll filter session.sink answer),
      .ok .handled⟩
  | .refused state signals refusal =>
    ⟨{ session with engine := state }, .called (.order order) :: heed filter session signals,
      .error (.engine refusal)⟩

def notify (notice : Engine.Notice) : Step State :=
  let (state, signals) := engine.notify session.engine notice
  ⟨{ session with engine := state }, .called (.notice notice) :: heed filter session signals,
    .ok .handled⟩

def answer (lines : List String) : Step State :=
  ⟨session, sendAll filter session.sink lines, .ok .handled⟩

def assign (assignment : Assignment) : Step State :=
  match session.settings.change assignment with
  | .ok change =>
    ⟨{ session with settings := session.settings.apply change }, filter.note change.record,
      .ok .handled⟩
  | .error error => ⟨session, [], .error (.setting error)⟩

def carryOut : Request → Step State
  | .uci => answer filter session (identity ++ session.settings.lines ++ ["uciok"])
  | .isReady => order filter engine session .getReady ["readyok"]
  | .setOption assignment => assign filter session assignment
  | .newGame => order filter engine session .newGame []
  | .position position =>
    order filter engine session (.setPosition position.fen position.moves) []
  | .go search => order filter engine session (.go search) []
  | .stop => notify filter engine session .stop
  | .ponderHit => notify filter engine session .ponderHit
  | .quit => ⟨session, [], .ok .quit⟩
  | .xyzzy => answer filter session ["Nothing happens."]

def remarks (invocation : Invocation) : List Event :=
  match invocation.command with
  | .position =>
    (Position.ignored? invocation.arguments).toList.flatMap fun text =>
      filter.note (Log.Component.request.record .warn s!"ignoring tokens after startpos: {text}")
  | _ => []

def handle (line : String) : Step State :=
  let heard := filter.note (Log.Component.dispatch.record .debug s!">> {line}")
  match Invocation.ofLine line with
  | .error error => ⟨session, heard, .error (.request error)⟩
  | .ok none => ⟨session, heard, .ok .blank⟩
  | .ok (some invocation) =>
    match Request.ofInvocation invocation with
    | .error error => ⟨session, heard, .error (.request error)⟩
    | .ok request =>
      let step := carryOut filter engine session request
      { step with events := heard ++ (remarks filter invocation ++ step.events) }

def serve (bytes : List UInt8) : Served State :=
  let step := handle filter engine session (Text.received bytes)
  match step.outcome with
  | .ok .quit =>
    ⟨step.session,
      step.events ++ filter.note (Log.Component.dispatch.record .info "quit received"), true⟩
  | .ok .blank | .ok .handled => ⟨step.session, step.events, false⟩
  | .error error =>
    ⟨step.session,
      step.events ++ (filter.note (Log.Component.dispatch.record .warn error.message) ++
        send filter step.session.sink s!"error {error.message}"),
      false⟩

def run (session : Session State) (source : Source) : Run State :=
  match _line : source.read with
  | .ended => ⟨session, [], .finished⟩
  | .failed => ⟨session, [], .failed⟩
  | .line bytes rest =>
    let served := serve filter engine session bytes
    if served.quits then ⟨served.session, served.events, .finished⟩
    else
      let later := run served.session rest
      { later with events := served.events ++ later.events }
termination_by source.size
decreasing_by exact Source.read_smaller _line

def take : Feed → Taken State
  | .line text =>
    let step := handle filter engine session text
    ⟨step.session, step.events, .line step.outcome⟩
  | .request request =>
    let step := carryOut filter engine session request
    ⟨step.session, step.events, .line step.outcome⟩
  | .run source =>
    let run := run filter engine session source
    ⟨run.session, run.events, .run run.ending⟩

def takeAll (session : Session State) : List Feed → Stretch State
  | [] => ⟨session, [], []⟩
  | feed :: feeds =>
    let next := take filter engine session feed
    let later := takeAll next.session feeds
    ⟨later.session, next.events ++ later.events, next :: later.taken⟩

def live (feeds : List Feed) : Stretch State :=
  let begun := start filter engine session
  let led := takeAll filter engine begun.1 feeds
  let ended := finish filter engine led.session
  ⟨ended.1, begun.2 ++ (led.events ++ ended.2), led.taken⟩

end Logged

end UciProtocol
