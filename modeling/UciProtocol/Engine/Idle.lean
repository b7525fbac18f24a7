import UciProtocol.Engine
import UciProtocol.Request.Position
import UciProtocol.Setting

/-! An engine without a search.

It answers every order to search with the first move it was asked to look at, or the null move.
The answer to an infinite search or to pondering is held back until the search is stopped or the
expected move is played. -/

set_option autoImplicit false

namespace UciProtocol

structure Idle (Responder : Type) where
  fen : String := startFen
  moves : List Move := []
  /-- The answer that is held back. -/
  held : Option Move := none
  responder : Option Responder := none
  deriving DecidableEq, Repr

namespace Idle

open Engine

variable {Responder : Type}

/-- The settings of the engine, of which it takes no notice. -/
def settings : List Setting :=
  [⟨"Hash", .spin 16 1 65536⟩, ⟨"Threads", .spin 1 1 256⟩, ⟨"MultiPV", .spin 1 1 64⟩,
    ⟨"Ponder", .check false⟩]

def result (idle : Idle Responder) (move : Move) : List (Signal Responder) :=
  match idle.responder with
  | none =>
    [.log (Log.Component.idle.record .warn "search finished with no responder attached")]
  | some responder =>
    [.report responder (.progress [{ depth := some 0, comment := "no search core attached" }]),
      .report responder (.best { move })]

def readMove (text : String) : Except Refusal Move :=
  match Move.ofText? text with
  | some move => .ok move
  | none => .error (.invalidMove text)

/-- Read moves up to the first that is none. -/
def readMoves : List String → Except Refusal (List Move)
  | [] => .ok []
  | text :: rest => (readMove text).bind fun move => (readMoves rest).map (move :: ·)

/-- Read a position, of which no more is checked than that it has four fields. -/
def readPosition (fen : String) (moves : List String) : Except Refusal (List Move) :=
  if (Text.tokens fen).length < 4 then .error (.invalidFen fen) else readMoves moves

def answer (search : Search) : Except Refusal Move :=
  match search.searchMoves with
  | [] => .ok .null
  | text :: _ => readMove text

def obey (idle : Idle Responder) : Order → Reply Responder (Idle Responder)
  | .getReady => .done idle []
  | .newGame => .done { idle with fen := startFen, moves := [], held := none } []
  | .setPosition fen moves =>
    match readPosition fen moves with
    | .ok moves => .done { idle with fen, moves } []
    | .error refusal => .refused idle [] refusal
  | .go search =>
    match answer search with
    | .error refusal => .refused idle [] refusal
    | .ok move =>
      if search.infinite ∨ search.ponder then .done { idle with held := some move } []
      else .done idle (idle.result move)

def release (idle : Idle Responder) : Idle Responder × List (Signal Responder) :=
  match idle.held with
  | none => (idle, [])
  | some move => ({ idle with held := none }, idle.result move)

def engine : Engine Responder (Idle Responder) where
  obey := obey
  notify idle _ := idle.release
  register idle responder := ({ idle with responder := some responder }, [])
  unregister idle := ({ idle with responder := none }, [])

end Idle

end UciProtocol
