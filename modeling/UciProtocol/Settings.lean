import UciProtocol.Log
import UciProtocol.Report
import UciProtocol.Request.Assignment
import UciProtocol.Setting
import UciProtocol.Table

/-! The settings that are declared, and their values.

Settings stand in the order in which their keys were first declared. The values are held by key and
apart from the declarations: those that hold everywhere in one table, those of a single context in
a table of that context. -/

set_option autoImplicit false

namespace UciProtocol

structure Settings where
  declared : List Setting := []
  global : Table Setting.Value := .empty
  contexts : Table (Table Setting.Value) := .empty
  deriving DecidableEq, Repr

namespace Settings

def find? (settings : Settings) (name : String) : Option Setting :=
  settings.declared.find? fun setting => Setting.key setting.name = Setting.key name

/-- Put a setting in the place of the first one with its key, or behind all others. -/
def place (setting : Setting) : List Setting → List Setting
  | [] => [setting]
  | other :: rest =>
    if Setting.key other.name = Setting.key setting.name then setting :: rest
    else other :: place setting rest

/-- Declare a setting. Its default holds everywhere from now on; what single contexts have stays. -/
def declare (settings : Settings) (setting : Setting) : Settings :=
  { settings with
    declared := place setting settings.declared
    global := settings.global.insert (Setting.key setting.name) setting.default }

def declareAll (settings : Settings) (declared : List Setting) : Settings :=
  declared.foldl declare settings

def lines (settings : Settings) : List String := settings.declared.map (·.line)

def get? (settings : Settings) (name : String) : Option Setting.Value :=
  settings.global.get? (Setting.key name)

/-- The value in a context, which is the one that holds everywhere where the context has none. -/
def getIn? (settings : Settings) (context name : String) : Option Setting.Value :=
  let key := Setting.key name
  ((settings.contexts.get? context).bind (·.get? key)).or (settings.global.get? key)

/-- Whether a check is on. Any other setting is not. -/
def isOn (settings : Settings) (name : String) : Bool :=
  settings.get? name = some (.bool true)

def int? (settings : Settings) (name : String) : Option Int64 :=
  match settings.get? name with
  | some (.int n) => some n
  | _ => none

structure Change where
  setting : Setting
  value : Setting.Value
  context : String
  deriving DecidableEq, Repr

def Change.message (change : Change) : String :=
  s!"option '{change.setting.name}' set to {change.value.render}" ++
    if change.context = "" then "" else s!" in context '{change.context}'"

def Change.record (change : Change) : Log.Record :=
  Log.Component.options.record .info change.message

def change (settings : Settings) (assignment : Assignment) : Except Setting.Error Change :=
  match settings.find? assignment.name with
  | none => .error (.unknown assignment.name)
  | some setting =>
    (setting.read assignment.value).map fun value => ⟨setting, value, assignment.context⟩

/-- Hold a value for a key in a context; the empty context stands for everywhere. -/
def hold (settings : Settings) (context key : String) (value : Setting.Value) : Settings :=
  if context = "" then { settings with global := settings.global.insert key value }
  else
    let held := (settings.contexts.get? context).getD .empty
    { settings with contexts := settings.contexts.insert context (held.insert key value) }

def apply (settings : Settings) (change : Change) : Settings :=
  settings.hold change.context (Setting.key change.setting.name) change.value

def set (settings : Settings) (assignment : Assignment) : Except Setting.Error Settings :=
  (settings.change assignment).map settings.apply

def displaySettings : List Setting :=
  [⟨"UCI_Chess960", .check false⟩, ⟨"UCI_ShowWDL", .check true⟩,
    ⟨"UCI_ShowMovesLeft", .check false⟩]

def display (settings : Settings) : Display where
  chess960 := settings.isOn "UCI_Chess960"
  showWdl := settings.isOn "UCI_ShowWDL"
  showMovesLeft := settings.isOn "UCI_ShowMovesLeft"

end Settings

end UciProtocol
