import UciProtocol.Arguments
import UciProtocol.Request.Error

/-! Positions: what `position` sets up. -/

set_option autoImplicit false

namespace UciProtocol

def startFen : String := "rnbqkbnr/pppppppp/8/8/8/8/PPPPPPPP/RNBQKBNR w KQkq - 0 1"

inductive Position.Base where
  | startPosition
  | fen (text : String)
  deriving DecidableEq, Repr

def Position.Base.text : Position.Base → String
  | startPosition => startFen
  | fen text => text

structure Position where
  base : Position.Base := .startPosition
  moves : List String := []
  deriving DecidableEq, Repr

namespace Position

def fen (position : Position) : String := position.base.text

/-- Read the arguments of `position`. An empty `fen` stands for the start position. -/
def ofArguments (arguments : Arguments) : Except RequestError Position :=
  if arguments.contains "fen" = arguments.contains "startpos" then .error .positionBase
  else
    let fen := arguments.value "fen"
    .ok {
      base := if fen = "" then .startPosition else .fen fen
      moves := Text.tokens (arguments.value "moves") }

/-- The words behind `startpos`, where they do no good. -/
def ignored? (arguments : Arguments) : Option String :=
  let text := arguments.value "startpos"
  if text = "" then none else some text

def groups (position : Position) : List Group :=
  (match position.base with
    | .startPosition => [⟨"startpos", []⟩]
    | .fen text => [⟨"fen", (text.toList.splitOn ' ').map String.ofList⟩]) ++
  if position.moves = [] then [] else [⟨"moves", position.moves⟩]

end Position

end UciProtocol
