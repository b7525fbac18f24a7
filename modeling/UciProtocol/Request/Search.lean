import UciProtocol.Arguments
import UciProtocol.Command
import UciProtocol.Numeral
import UciProtocol.Request.Error

/-! Orders to search: what `go` asks for. -/

set_option autoImplicit false

namespace UciProtocol

inductive Limit where
  | wtime
  | btime
  | winc
  | binc
  | movestogo
  | depth
  | mate
  | nodes
  | movetime
  deriving DecidableEq, Repr

namespace Limit

def all : List Limit := [wtime, btime, winc, binc, movestogo, depth, mate, nodes, movetime]

def keyword : Limit → String
  | wtime => "wtime"
  | btime => "btime"
  | winc => "winc"
  | binc => "binc"
  | movestogo => "movestogo"
  | depth => "depth"
  | mate => "mate"
  | nodes => "nodes"
  | movetime => "movetime"

end Limit

/-- The limits of one search; `none` is a limit that is not given. -/
structure Limits where
  wtime : Option Int32 := none
  btime : Option Int32 := none
  winc : Option Int32 := none
  binc : Option Int32 := none
  movestogo : Option Int32 := none
  depth : Option Int32 := none
  mate : Option Int32 := none
  nodes : Option Int32 := none
  movetime : Option Int32 := none
  deriving DecidableEq, Repr

namespace Limits

def get (limits : Limits) : Limit → Option Int32
  | .wtime => limits.wtime
  | .btime => limits.btime
  | .winc => limits.winc
  | .binc => limits.binc
  | .movestogo => limits.movestogo
  | .depth => limits.depth
  | .mate => limits.mate
  | .nodes => limits.nodes
  | .movetime => limits.movetime

/-- Find every limit by itself, in reading order. -/
def build {m : Type → Type} [Monad m] (find : Limit → m (Option Int32)) : m Limits := do
  let wtime ← find .wtime
  let btime ← find .btime
  let winc ← find .winc
  let binc ← find .binc
  let movestogo ← find .movestogo
  let depth ← find .depth
  let mate ← find .mate
  let nodes ← find .nodes
  let movetime ← find .movetime
  return { wtime, btime, winc, binc, movestogo, depth, mate, nodes, movetime }

end Limits

/-- An order to search. `infinite` and `ponder` hold the result back; `searchMoves` names the
moves to look at, any number of them. -/
structure Search where
  infinite : Bool := false
  ponder : Bool := false
  searchMoves : List String := []
  limits : Limits := {}
  deriving DecidableEq, Repr

namespace Search

def isGiven (arguments : Arguments) (keyword : String) : Except RequestError Bool :=
  match arguments.get? keyword with
  | none => .ok false
  | some text =>
    if text = "" then .ok true else .error (.unexpectedToken text Command.go.name)

def number (keyword text : String) : Except RequestError Int32 :=
  (Numeral.readInt32 text).mapError fun
    | .empty => .missingNumber keyword
    | .invalidDigit => .invalidNumber text
    | .overflow => .numberOutOfRange text

def limit? (arguments : Arguments) (limit : Limit) : Except RequestError (Option Int32) :=
  match arguments.get? limit.keyword with
  | none => .ok none
  | some text => (number limit.keyword text).map some

/-- Read the arguments of `go`. Of several faults the first counts, in the order `infinite`,
`ponder`, then the limits. -/
def ofArguments (arguments : Arguments) : Except RequestError Search := do
  let infinite ← isGiven arguments "infinite"
  let ponder ← isGiven arguments "ponder"
  let limits ← Limits.build (limit? arguments)
  return { infinite, ponder, searchMoves := Text.tokens (arguments.value "searchmoves"), limits }

def groups (search : Search) : List Group :=
  (if search.infinite then [⟨"infinite", []⟩] else []) ++
  (if search.ponder then [⟨"ponder", []⟩] else []) ++
  Limit.all.filterMap (fun limit =>
    (search.limits.get limit).map fun n => ⟨limit.keyword, [Numeral.writeInt32 n]⟩) ++
  if search.searchMoves = [] then [] else [⟨"searchmoves", search.searchMoves⟩]

end Search

end UciProtocol
