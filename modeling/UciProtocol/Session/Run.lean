import UciProtocol.Session
import UciProtocol.Session.Source

/-! Sessions that read their lines from a byte source, until `quit` or the end. -/

set_option autoImplicit false

namespace UciProtocol

/-- How a run ends: by `quit` or at the end of its source, or because the source fails. -/
inductive Ending where
  | finished
  | failed
  deriving DecidableEq, Repr

structure Run (State : Type) where
  session : Session State
  events : List Event
  ending : Ending

structure Served (State : Type) where
  session : Session State
  events : List Event
  quits : Bool

namespace Session

variable {State : Type} (engine : Engine Unit State) (session : Session State)

def serve (bytes : List UInt8) : Served State :=
  let step := session.handle engine (Text.received bytes)
  match step.outcome with
  | .ok .quit =>
    ⟨step.session,
      step.events ++ [.logged (Log.Component.dispatch.record .info "quit received")], true⟩
  | .ok .blank | .ok .handled => ⟨step.session, step.events, false⟩
  | .error error =>
    ⟨step.session,
      step.events ++
        .logged (Log.Component.dispatch.record .warn error.message) ::
          step.session.sink.send s!"error {error.message}",
      false⟩

def run (session : Session State) (source : Source) : Run State :=
  match _line : source.read with
  | .ended => ⟨session, [], .finished⟩
  | .failed => ⟨session, [], .failed⟩
  | .line bytes rest =>
    let served := session.serve engine bytes
    if served.quits then ⟨served.session, served.events, .finished⟩
    else
      let later := run served.session rest
      { later with events := served.events ++ later.events }
termination_by source.size
decreasing_by exact Source.read_smaller _line

end Session

end UciProtocol
