/-! JSON values. Of the numbers only whole ones are ever read. -/

set_option autoImplicit false

namespace UciProtocol

inductive Json where
  | null
  | bool (value : Bool)
  | number (value : Int)
  /-- A number that is written with some digits behind the point. -/
  | fraction (digits : Int) (places : Nat)
  | string (value : String)
  | array (items : List Json)
  | object (fields : List (String × Json))
  deriving Inhabited, Repr

namespace Json

/-- A field of an object; the first of its name counts. -/
def field? (name : String) : Json → Option Json
  | object fields => fields.lookup name
  | _ => none

/-- Give names to the items of an array that has one for each name; any other value stays. -/
def named (names : List String) : Json → Json
  | array items =>
    if items.length = names.length then object (names.zip items) else array items
  | json => json

def bool? : Json → Option Bool
  | bool value => some value
  | _ => none

def string? : Json → Option String
  | string value => some value
  | _ => none

def strings? : Json → Option (List String)
  | array items => items.mapM string?
  | _ => none

def int32? : Json → Option Int32
  | number value =>
    if Int32.minValue.toInt ≤ value ∧ value ≤ Int32.maxValue.toInt then some (.ofInt value)
    else none
  | _ => none

def ofStrings (texts : List String) : Json := array (texts.map string)

def ofInt32? : Option Int32 → Json
  | none => null
  | some value => number value.toInt

end Json

end UciProtocol
