import UciProtocol.Engine

/-! What can be seen of the program from outside, and how lines are put out. -/

set_option autoImplicit false

namespace UciProtocol

inductive Event where
  /-- Text that has reached the output. -/
  | wrote (text : String)
  | logged (record : Log.Record)
  | called (call : Engine.Call)
  deriving DecidableEq, Repr

namespace Event

def output (events : List Event) : String :=
  String.join (events.filterMap fun | wrote text => some text | _ => none)

def records (events : List Event) : List Log.Record :=
  events.filterMap fun | logged record => some record | _ => none

def calls (events : List Event) : List Engine.Call :=
  events.filterMap fun | called call => some call | _ => none

end Event

/-- The state of the output: it takes lines, or it refuses to be written to, or it takes what is
written and then refuses to pass it on. -/
inductive Sink where
  | working
  | refusingWrites
  | refusingFlushes
  deriving DecidableEq, Repr

namespace Sink

/-- A refused write is noticed before a flush is tried. -/
def ofFailures (write flush : Bool) : Sink :=
  if write then refusingWrites else if flush then refusingFlushes else working

def failure? : Sink → Option String
  | working => none
  | refusingWrites => some "write refused"
  | refusingFlushes => some "flush refused"

def sending (line : String) : Log.Record :=
  Log.Component.responder.record .debug s!"<< {line}"

def failed (line cause : String) : Log.Record :=
  Log.Component.responder.record .error s!"failed to write response '{line}': {cause}"

/-- Put out one line. A line that fails is logged and given up. -/
def send (sink : Sink) (line : String) : List Event :=
  .logged (sending line) ::
    ((if sink = refusingWrites then [] else [.wrote (line ++ "\n")]) ++
      sink.failure?.toList.map fun cause => .logged (failed line cause))

def sendAll (sink : Sink) (lines : List String) : List Event := lines.flatMap sink.send

end Sink

/-- What a signal of an engine leads to at a responder with a given display and output. -/
def Engine.Signal.events {Responder : Type} (display : Display) (sink : Sink) :
    Engine.Signal Responder → List Event
  | .report _ said => sink.sendAll (said.lines display)
  | .log record => [.logged record]

def identity : List String :=
  ["id name chess_uci v0.1.0", "id author Dean Menezes (chess_uci v0.1.0)"]

end UciProtocol
