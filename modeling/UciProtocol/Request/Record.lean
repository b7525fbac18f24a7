import UciProtocol.Json
import UciProtocol.Request

/-! Requests as JSON.

A record is read from the fields it knows, in any order; other fields are ignored. It may also be
an array that holds the values of all its fields, in the order in which they are written. -/

set_option autoImplicit false

namespace UciProtocol

open Json

namespace Assignment

def fieldNames : List String := ["name", "value", "context"]

def fields (assignment : Assignment) : Table Json where
  entries := [("name", string assignment.name), ("value", string assignment.value),
    ("context", string assignment.context)]
  distinct := show fieldNames.Nodup by decide

def toJson (assignment : Assignment) : Json := object assignment.fields.entries

def ofJson? (json : Json) : Option Assignment := do
  let json := json.named fieldNames
  let name ← (json.field? "name").bind string?
  let value ← (json.field? "value").bind string?
  let context ← (json.field? "context").bind string?
  return { name, value, context }

end Assignment

namespace Position.Base

def toJson : Position.Base → Json
  | startPosition => string "StartPos"
  | fen text => object [("Fen", string text)]

/-- The start position may also be written as an object with a null field. -/
def ofJson? : Json → Option Position.Base
  | string "StartPos" => some startPosition
  | object [("StartPos", null)] => some startPosition
  | object [("Fen", string text)] => some (fen text)
  | _ => none

end Position.Base

namespace Position

def fieldNames : List String := ["base", "moves"]

def fields (position : Position) : Table Json where
  entries := [("base", position.base.toJson), ("moves", ofStrings position.moves)]
  distinct := show fieldNames.Nodup by decide

def toJson (position : Position) : Json := object position.fields.entries

def ofJson? (json : Json) : Option Position := do
  let json := json.named fieldNames
  let base ← (json.field? "base").bind Base.ofJson?
  let moves ← (json.field? "moves").bind strings?
  return { base, moves }

end Position

namespace Search

def fieldNames : List String :=
  ["infinite", "ponder", "searchmoves"] ++ Limit.all.map Limit.keyword

def fields (search : Search) : Table Json where
  entries :=
    [("infinite", bool search.infinite), ("ponder", bool search.ponder),
      ("searchmoves", ofStrings search.searchMoves)] ++
    Limit.all.map fun limit => (limit.keyword, ofInt32? (search.limits.get limit))
  distinct := show fieldNames.Nodup by decide

def toJson (search : Search) : Json := object search.fields.entries

def limitOfJson? (json : Json) (limit : Limit) : Option (Option Int32) :=
  match json.field? limit.keyword with
  | none | some null => some none
  | some value => value.int32?.map some

def ofJson? (json : Json) : Option Search := do
  let json := json.named fieldNames
  let infinite ← (json.field? "infinite").bind bool?
  let ponder ← (json.field? "ponder").bind bool?
  let searchMoves ← (json.field? "searchmoves").bind strings?
  let limits ← Limits.build (limitOfJson? json)
  return { infinite, ponder, searchMoves, limits }

end Search

namespace Request

/-- Make a request of a command and the record that belongs to it. Without a record the start
position is set up, and a search has no limits. -/
def ofJson? (command : Command) (record : Json) : Option Request :=
  match command with
  | .uci => some .uci
  | .isReady => some .isReady
  | .setOption => (Assignment.ofJson? record).map .setOption
  | .newGame => some .newGame
  | .position =>
    match record with
    | .null => some (.position {})
    | record => (Position.ofJson? record).map .position
  | .go =>
    match record with
    | .null => some (.go {})
    | record => (Search.ofJson? record).map .go
  | .stop => some .stop
  | .ponderHit => some .ponderHit
  | .quit => some .quit
  | .xyzzy => some .xyzzy

def command : Request → Command
  | .uci => .uci
  | .isReady => .isReady
  | .setOption _ => .setOption
  | .newGame => .newGame
  | .position _ => .position
  | .go _ => .go
  | .stop => .stop
  | .ponderHit => .ponderHit
  | .quit => .quit
  | .xyzzy => .xyzzy

def record : Request → Json
  | .setOption value => value.toJson
  | .position value => value.toJson
  | .go value => value.toJson
  | .uci | .isReady | .newGame | .stop | .ponderHit | .quit | .xyzzy => null

end Request

end UciProtocol
