/-! The commands a GUI can send, and the keywords that each of them takes. -/

set_option autoImplicit false

namespace UciProtocol

inductive Command where
  | uci
  | isReady
  | setOption
  | newGame
  | position
  | go
  | stop
  | ponderHit
  | quit
  | xyzzy
  deriving DecidableEq, Repr

namespace Command

def all : List Command :=
  [uci, isReady, setOption, newGame, position, go, stop, ponderHit, quit, xyzzy]

def name : Command → String
  | uci => "uci"
  | isReady => "isready"
  | setOption => "setoption"
  | newGame => "ucinewgame"
  | position => "position"
  | go => "go"
  | stop => "stop"
  | ponderHit => "ponderhit"
  | quit => "quit"
  | xyzzy => "xyzzy"

def keywords : Command → List String
  | setOption => ["name", "value", "context"]
  | position => ["fen", "startpos", "moves"]
  | go =>
    ["infinite", "ponder", "wtime", "btime", "winc", "binc", "movestogo", "depth", "mate", "nodes",
      "movetime", "searchmoves"]
  | uci | isReady | newGame | stop | ponderHit | quit | xyzzy => []

def ofName? (word : String) : Option Command := all.find? (·.name = word)

end Command

end UciProtocol
