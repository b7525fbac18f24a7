import UciProtocol.Text.Blank

/-! Log records, the levels that let them through, and the lines that a log file holds. -/

set_option autoImplicit false

namespace UciProtocol.Log

inductive Level where
  | error
  | warn
  | info
  | debug
  | trace
  deriving DecidableEq, Repr

namespace Level

def name : Level → String
  | error => "ERROR"
  | warn => "WARN"
  | info => "INFO"
  | debug => "DEBUG"
  | trace => "TRACE"

def detail : Level → Nat
  | error => 1
  | warn => 2
  | info => 3
  | debug => 4
  | trace => 5

def all : List Level := [error, warn, info, debug, trace]

def ofName? (text : String) : Option Level :=
  all.find? fun level => Text.lowered level.name = Text.lowered text

end Level

/-- The records that a log keeps: those up to a level, or none. -/
inductive Filter where
  | off
  | upTo (level : Level)
  deriving DecidableEq, Repr

namespace Filter

def name : Filter → String
  | off => "OFF"
  | upTo level => level.name

def admits : Filter → Level → Bool
  | off, _ => false
  | upTo most, level => level.detail ≤ most.detail

def ofName? (text : String) : Option Filter :=
  if Text.lowered text = "off" then some off else (Level.ofName? text).map upTo

end Filter

inductive Component where
  | dispatch
  | options
  | request
  | responder
  | idle
  | logging
  | program
  deriving DecidableEq, Repr

def Component.target : Component → String
  | dispatch => "chess_uci::uci::dispatch"
  | options => "chess_uci::uci::options"
  | request => "chess_uci::uci::request"
  | responder => "chess_uci::uci::responder"
  | idle => "chess_uci::engine::idle"
  | logging => "chess_uci::logging"
  | program => "chess_uci"

structure Record where
  level : Level
  target : String
  message : String
  deriving DecidableEq, Repr

def Component.record (component : Component) (level : Level) (message : String) : Record :=
  ⟨level, component.target, message⟩

def Level.column (level : Level) : String :=
  level.name ++ String.ofList (List.replicate (5 - level.name.length) ' ')

def Record.line (record : Record) : String :=
  s!"{record.level.column} {record.target}: {record.message}\n"

def kept (filter : Filter) (records : List Record) : List Record :=
  records.filter (filter.admits ·.level)

/-! ### Time stamps -/

/-- The stamp of a time in milliseconds: seconds with three places in ten columns, and a space. -/
def stamp (milliseconds : Nat) : List Char :=
  let places := Nat.toDigits 10 (1000 + milliseconds % 1000)
  let seconds := Nat.toDigits 10 (milliseconds / 1000) ++ '.' :: places.drop 1
  List.replicate (10 - seconds.length) ' ' ++ seconds ++ [' ']

def stamped (milliseconds : Nat) (record : Record) : String :=
  String.ofList (stamp milliseconds) ++ record.line

end UciProtocol.Log
