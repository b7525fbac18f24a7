import UciProtocol.Proofs.EngineInputs
import UciProtocol.Proofs.ReportLines
import UciProtocol.Proofs.Runs
import UciProtocol.Session.Logged

/-! The calls that reach an engine in the life of a session.

The first call registers the output of the session and the last one takes it back. Between them
there is one call for each valid request that asks something of the engine, whether the engine
refuses it or not, and nothing else changes the engine. That the engine is ready is said behind
the call that made it so.
-/

set_option autoImplicit false

namespace UciProtocol

open Text

namespace Engine

variable {Responder State : Type}

def Call.input : Call → Input Unit
  | .order given => .order given
  | .notice given => .notice given
  | .register => .register ()
  | .unregister => .unregister

end Engine

namespace Request

end Request

/-! ### What is written, and what is called -/

namespace Event

end Event

namespace Session

variable {State : Type} (engine : Engine Unit State) (session : Session State)

namespace Turn

variable {engine session} {request : Option Request} {events : List Event}

end Turn

/-- Some calls reach the engine, and make it what it is behind them. -/
structure Makes (state : State) (calls : List Engine.Call) (next : Session State)
    (events : List Event) : Prop where
  made : Event.calls events = calls
  led : next.engine = engine.after state (calls.map Engine.Call.input)

section
variable {engine session}

theorem Makes.append {state : State} {front back : List Engine.Call} {middle last : Session State}
    {first later : List Event} (before : Makes engine state front middle first)
    (behind : Makes engine middle.engine back last later) :
    Makes engine state (front ++ back) last (first ++ later) where
  made := by rw [Event.calls_append, before.made, behind.made]
  led := by rw [behind.led, before.led, ← Engine.after_append, List.map_append]

theorem Makes.congr {state : State} {calls : List Engine.Call} {next : Session State}
    {events others : List Event} (makes : Makes engine state calls next events)
    (same : Event.calls others = Event.calls events) : Makes engine state calls next others :=
  ⟨same.trans makes.made, makes.led⟩

end

end Session

namespace Feed

end Feed

namespace Session

variable {State : Type} (engine : Engine Unit State)

def take (session : Session State) : Feed → Session State × List Event
  | .line text => ((session.handle engine text).session, (session.handle engine text).events)
  | .request request =>
    ((session.carryOut engine request).session, (session.carryOut engine request).events)
  | .run source => ((session.run engine source).session, (session.run engine source).events)

def takeAll (session : Session State) : List Feed → Session State × List Event
  | [] => (session, [])
  | feed :: feeds =>
    let next := session.take engine feed
    let last := takeAll next.1 feeds
    (last.1, next.2 ++ last.2)

def live (session : Session State) (feeds : List Feed) : Session State × List Event :=
  let begun := session.start engine
  let led := begun.1.takeAll engine feeds
  let ended := led.1.finish engine
  (ended.1, begun.2 ++ (led.2 ++ ended.2))

end Session

end UciProtocol
