import UciProtocol.Numeral
import UciProtocol.Text.Blank

/-! A setting that a GUI can change: its declaration, its values, and how a value is read. -/

set_option autoImplicit false

namespace UciProtocol

namespace Setting

inductive Kind where
  | check (default : Bool)
  | spin (default least greatest : Int64)
  | combo (default : String) (choices : List String)
  | string (default : String)
  deriving DecidableEq, Repr

inductive Value where
  | bool (value : Bool)
  | int (value : Int64)
  | text (value : String)
  deriving DecidableEq, Repr

inductive Error where
  | unknown (name : String)
  | invalidValue (name value : String)
  | outOfRange (name : String) (value least greatest : Int64)
  deriving DecidableEq, Repr

def Error.message : Error → String
  | unknown name => s!"Unknown option: '{name}'"
  | invalidValue name value => s!"Invalid value '{value}' for option '{name}'"
  | outOfRange name value least greatest =>
    s!"Value {Numeral.writeInt64 value} for option '{name}' is outside " ++
      s!"{Numeral.writeInt64 least}..{Numeral.writeInt64 greatest}"

def boolText (value : Bool) : String := if value then "true" else "false"

def Value.render : Value → String
  | bool value => boolText value
  | int value => Numeral.writeInt64 value
  | text value => value

end Setting

structure Setting where
  name : String
  kind : Setting.Kind
  deriving DecidableEq, Repr

namespace Setting

/-- What names have in common that mean the same setting. -/
def key (name : String) : String := Text.lowered (String.ofList (Text.trim name.toList))

def default (setting : Setting) : Value :=
  match setting.kind with
  | .check default => .bool default
  | .spin default _ _ => .int default
  | .combo default _ => .text default
  | .string default => .text default

/-- Read a value. A check takes `true`, `1`, `false` and `0` in any case; of the choices of a combo
the first that agrees up to case is taken. -/
def read (setting : Setting) (value : String) : Except Error Value :=
  let invalid := Error.invalidValue setting.name value
  match setting.kind with
  | .check _ =>
    let word := Text.lowered value
    if word = "true" ∨ word = "1" then .ok (.bool true)
    else if word = "false" ∨ word = "0" then .ok (.bool false)
    else .error invalid
  | .spin _ least greatest =>
    match Numeral.readInt64 value with
    | .error _ => .error invalid
    | .ok n =>
      if n < least ∨ greatest < n then .error (.outOfRange setting.name n least greatest)
      else .ok (.int n)
  | .combo _ choices =>
    match choices.find? fun choice => Text.lowered choice = Text.lowered value with
    | some choice => .ok (.text choice)
    | none => .error invalid
  | .string _ => .ok (.text value)

def line (setting : Setting) : String :=
  "option name " ++ setting.name ++ " type " ++
    match setting.kind with
    | .check default => s!"check default {boolText default}"
    | .spin default least greatest =>
      s!"spin default {Numeral.writeInt64 default} min {Numeral.writeInt64 least} " ++
        s!"max {Numeral.writeInt64 greatest}"
    | .combo default choices =>
      s!"combo default {default}" ++ String.join (choices.map (" var " ++ ·))
    | .string default => "string default " ++ if default = "" then "<empty>" else default

end Setting

end UciProtocol
