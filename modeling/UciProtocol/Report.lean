import UciProtocol.Arguments
import UciProtocol.Move
import UciProtocol.Numeral

/-! What an engine reports about a search, and the lines that say it.

Every part of a report is a keyword group of its line, which is left out where the part is not
given. -/

set_option autoImplicit false

namespace UciProtocol

structure Display where
  chess960 : Bool
  showWdl : Bool
  showMovesLeft : Bool
  deriving DecidableEq, Repr

inductive Side where
  | white
  | black
  deriving DecidableEq, Repr

def Side.name : Side → String
  | white => "white"
  | black => "black"

/-- The value of a position: hundredths of a pawn, or the moves to mate, negative for the side
that is mated. -/
inductive Score where
  | centipawns (value : Int32)
  | mate (moves : Int32)
  deriving DecidableEq, Repr

def Score.words : Score → List String
  | centipawns value => ["cp", Numeral.writeInt32 value]
  | mate moves => ["mate", Numeral.writeInt32 moves]

structure Chances where
  win : UInt32
  draw : UInt32
  loss : UInt32
  deriving DecidableEq, Repr

def Chances.words (chances : Chances) : List String :=
  [chances.win.toNat.repr, chances.draw.toNat.repr, chances.loss.toNat.repr]

def Group.ofOption {α : Type} (keyword : String) (words : α → List String) : Option α → List Group
  | none => []
  | some part => [⟨keyword, words part⟩]

def Group.ofList {α : Type} (keyword : String) (word : α → String) : List α → List Group
  | [] => []
  | parts => [⟨keyword, parts.map word⟩]

/-- The line that consists of a head and groups, with single spaces. -/
def Group.line (head : List String) (groups : List Group) : String :=
  " ".intercalate (head ++ groups.flatMap tokens)

structure BestMove where
  move : Move
  ponder : Option Move := none
  player : Option UInt32 := none
  gameId : Option UInt32 := none
  side : Option Side := none
  deriving DecidableEq, Repr

namespace BestMove

def groups (display : Display) (best : BestMove) : List Group :=
  Group.ofOption "ponder" (fun move => [move.text display.chess960]) best.ponder ++
  Group.ofOption "player" (fun n => [n.toNat.repr]) best.player ++
  Group.ofOption "gameid" (fun n => [n.toNat.repr]) best.gameId ++
  Group.ofOption "side" (fun side => [side.name]) best.side

def line (display : Display) (best : BestMove) : String :=
  Group.line ["bestmove", best.move.text display.chess960] (best.groups display)

end BestMove

/-- How far a search has come. An empty comment is none. -/
structure Progress where
  player : Option UInt32 := none
  gameId : Option UInt32 := none
  side : Option Side := none
  depth : Option Int32 := none
  selectiveDepth : Option Int32 := none
  /-- Milliseconds since the search began. -/
  time : Option UInt64 := none
  nodes : Option UInt64 := none
  score : Option Score := none
  wdl : Option Chances := none
  movesLeft : Option UInt32 := none
  /-- The filled part of the hash table, in thousandths. -/
  hashFull : Option UInt32 := none
  nodesPerSecond : Option UInt64 := none
  tablebaseHits : Option UInt64 := none
  multiPv : Option UInt32 := none
  variation : List Move := []
  comment : String := ""
  deriving DecidableEq, Repr

namespace Progress

/-- A depth is shown as one at least. -/
def depthWords (depth : Int32) : List String := [(max depth.toInt 1).repr]

def groups (display : Display) (progress : Progress) : List Group :=
  Group.ofOption "player" (fun n => [n.toNat.repr]) progress.player ++
  Group.ofOption "gameid" (fun n => [n.toNat.repr]) progress.gameId ++
  Group.ofOption "side" (fun side => [side.name]) progress.side ++
  Group.ofOption "depth" depthWords progress.depth ++
  Group.ofOption "seldepth" (fun n => [Numeral.writeInt32 n]) progress.selectiveDepth ++
  Group.ofOption "time" (fun n => [n.toNat.repr]) progress.time ++
  Group.ofOption "nodes" (fun n => [n.toNat.repr]) progress.nodes ++
  Group.ofOption "score" Score.words progress.score ++
  (if display.showWdl then Group.ofOption "wdl" Chances.words progress.wdl else []) ++
  (if display.showMovesLeft then
    Group.ofOption "movesleft" (fun n => [n.toNat.repr]) progress.movesLeft else []) ++
  Group.ofOption "hashfull" (fun n => [n.toNat.repr]) progress.hashFull ++
  Group.ofOption "nps" (fun n => [n.toNat.repr]) progress.nodesPerSecond ++
  Group.ofOption "tbhits" (fun n => [n.toNat.repr]) progress.tablebaseHits ++
  Group.ofOption "multipv" (fun n => [n.toNat.repr]) progress.multiPv ++
  Group.ofList "pv" (·.text display.chess960) progress.variation ++
  if progress.comment = "" then [] else [⟨"string", [progress.comment]⟩]

def line (display : Display) (progress : Progress) : String :=
  Group.line ["info"] (progress.groups display)

end Progress

/-- One thing reported: the progress of a search on any number of variations, or its result. -/
inductive Report where
  | progress (variations : List Progress)
  | best (result : BestMove)
  deriving DecidableEq, Repr

def Report.lines (display : Display) : Report → List String
  | progress variations => variations.map (·.line display)
  | best result => [result.line display]

end UciProtocol
