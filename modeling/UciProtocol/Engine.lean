import UciProtocol.Log
import UciProtocol.Report
import UciProtocol.Request.Search

/-! The engine as the protocol sees it.

An engine can refuse an order. It sends reports to the responder that is registered with it, which
may happen long after the order that asked for them, and whatever it is told. -/

set_option autoImplicit false

namespace UciProtocol

inductive Engine.Refusal where
  | invalidFen (fen : String)
  | invalidMove (text : String)
  | notReady (cause : String)
  deriving DecidableEq, Repr

def Engine.Refusal.message : Engine.Refusal → String
  | invalidFen fen => s!"Invalid FEN: {fen}"
  | invalidMove text => s!"Invalid move '{text}'"
  | notReady cause => s!"Engine not ready: {cause}"

namespace Engine

inductive Order where
  | getReady
  | newGame
  | setPosition (fen : String) (moves : List String)
  | go (search : Search)
  deriving DecidableEq, Repr

inductive Notice where
  | stop
  | ponderHit
  deriving DecidableEq, Repr

inductive Call where
  | order (order : Order)
  | notice (notice : Notice)
  | register
  | unregister
  deriving DecidableEq, Repr

/-- What an engine gives out: a report to a responder, or a log record. -/
inductive Signal (Responder : Type) where
  | report (responder : Responder) (report : Report)
  | log (record : Log.Record)
  deriving DecidableEq, Repr

/-- The answer to an order, with what the engine gives out before it answers. -/
inductive Reply (Responder State : Type) where
  | done (state : State) (signals : List (Signal Responder))
  | refused (state : State) (signals : List (Signal Responder)) (refusal : Refusal)
  deriving DecidableEq, Repr

end Engine

structure Engine (Responder State : Type) where
  obey : State → Engine.Order → Engine.Reply Responder State
  notify : State → Engine.Notice → State × List (Engine.Signal Responder)
  /-- Attach a responder, in place of the one before. -/
  register : State → Responder → State × List (Engine.Signal Responder)
  unregister : State → State × List (Engine.Signal Responder)

end UciProtocol
