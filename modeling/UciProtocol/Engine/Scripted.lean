import UciProtocol.Engine

/-! An engine that follows a script, to try out what drives it. -/

set_option autoImplicit false

namespace UciProtocol

/-- The orders that are refused, and what is reported after the others. -/
structure Script where
  refuseReady : Option Engine.Refusal := none
  refuseNewGame : Option Engine.Refusal := none
  refusePosition : Option Engine.Refusal := none
  refuseGo : Option Engine.Refusal := none
  onGo : List Report := []
  onStop : List Report := []
  onPonderHit : List Report := []
  deriving DecidableEq, Repr

structure Scripted (Responder : Type) where
  script : Script
  responder : Option Responder := none
  deriving DecidableEq, Repr

namespace Scripted

open Engine

variable {Responder : Type}

def refusal? (script : Script) : Order → Option Refusal
  | .getReady => script.refuseReady
  | .newGame => script.refuseNewGame
  | .setPosition .. => script.refusePosition
  | .go _ => script.refuseGo

def reports (script : Script) : Order → List Report
  | .go _ => script.onGo
  | .getReady | .newGame | .setPosition .. => []

def send (scripted : Scripted Responder) (reports : List Report) : List (Signal Responder) :=
  match scripted.responder with
  | none => []
  | some responder => reports.map (.report responder)

def engine : Engine Responder (Scripted Responder) where
  obey scripted order :=
    match refusal? scripted.script order with
    | some refusal => .refused scripted [] refusal
    | none => .done scripted (scripted.send (reports scripted.script order))
  notify scripted notice :=
    (scripted, scripted.send
      (match notice with
        | .stop => scripted.script.onStop
        | .ponderHit => scripted.script.onPonderHit))
  register scripted responder := ({ scripted with responder := some responder }, [])
  unregister scripted := ({ scripted with responder := none }, [])

end Scripted

end UciProtocol
