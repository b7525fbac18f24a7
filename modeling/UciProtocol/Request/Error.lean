/-! Why a line is no valid request. -/

set_option autoImplicit false

namespace UciProtocol

inductive RequestError where
  /-- The first word names no command. -/
  | unknownCommand (command line : String)
  /-- A word that belongs to no keyword, or the words behind a keyword that takes none. -/
  | unexpectedToken (token command : String)
  | expectedName
  | missingValue
  | emptyOptionName
  | emptyOptionValue
  | emptyContext (name : String)
  /-- A position takes exactly one of `fen` and `startpos`. -/
  | positionBase
  | missingNumber (keyword : String)
  | invalidNumber (value : String)
  | numberOutOfRange (value : String)
  deriving DecidableEq, Repr

def RequestError.message : RequestError → String
  | unknownCommand command line => s!"Unknown command: '{command}' from line: '{line}'"
  | unexpectedToken token command => s!"Unexpected token: {token} in command {command}"
  | expectedName => "Malformed setoption (expected 'name')"
  | missingValue => "Malformed setoption (missing 'value')"
  | emptyOptionName => "Empty option name"
  | emptyOptionValue => "Empty option value"
  | emptyContext name => s!"Empty context for '{name}'"
  | positionBase => "Position requires either fen or startpos"
  | missingNumber keyword => s!"expected value after {keyword}"
  | invalidNumber value => s!"invalid value {value}"
  | numberOutOfRange value => s!"out of range value {value}"

end UciProtocol
