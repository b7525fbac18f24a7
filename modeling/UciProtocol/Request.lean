import UciProtocol.Invocation
import UciProtocol.Request.Position
import UciProtocol.Request.Search

/-! Requests: commands whose arguments have all been checked. -/

set_option autoImplicit false

namespace UciProtocol

inductive Request where
  | uci
  | isReady
  | setOption (assignment : Assignment)
  | newGame
  | position (position : Position)
  | go (search : Search)
  | stop
  | ponderHit
  | quit
  | xyzzy
  deriving DecidableEq, Repr

namespace Request

def ofInvocation (invocation : Invocation) : Except RequestError Request :=
  let arguments := invocation.arguments
  match invocation.command with
  | .uci => .ok uci
  | .isReady => .ok isReady
  | .setOption => (Assignment.ofArguments arguments).map setOption
  | .newGame => .ok newGame
  | .position => (Position.ofArguments arguments).map position
  | .go => (Search.ofArguments arguments).map go
  | .stop => .ok stop
  | .ponderHit => .ok ponderHit
  | .quit => .ok quit
  | .xyzzy => .ok xyzzy

def ofLine (line : String) : Except RequestError (Option Request) :=
  (Invocation.ofLine line).bind fun
    | none => .ok none
    | some invocation => (ofInvocation invocation).map some

def line (command : Command) (groups : List Group) : String :=
  " ".intercalate (command.name :: groups.flatMap Group.tokens)

end Request

end UciProtocol
