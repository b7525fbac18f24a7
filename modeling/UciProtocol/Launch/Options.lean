import UciProtocol.Log

/-! The options that the program is started with.

There are two: `--logfile PATH` and `--log-level LEVEL`, also written with an equals sign, each
once at most and with a value that is not empty. -/

set_option autoImplicit false

namespace UciProtocol.Launch

structure Options where
  logFile : Option String := none
  filter : Log.Filter := .upTo .debug
  deriving DecidableEq, Repr

/-- The filter of the log. Without a file nothing is logged. -/
def Options.inForce (options : Options) : Log.Filter :=
  if options.logFile.isSome then options.filter else .off

structure Given where
  logFile : Option String := none
  level : Option String := none
  deriving DecidableEq, Repr

namespace Given

def put (given : Given) (option value : String) : Option Given :=
  if value = "" then none
  else if option = "--logfile" ∧ given.logFile = none then
    some { given with logFile := some value }
  else if option = "--log-level" ∧ given.level = none then some { given with level := some value }
  else none

/-- Whether a word can stand as the value of the option before it. A hyphen by itself can. -/
def isValue (word : String) : Bool := word = "-" || word.toList.head? != some '-'

def cutAtEquals (word : String) : String × Option String :=
  let text := word.toList
  let option := String.ofList (text.takeWhile (· != '='))
  match text.dropWhile (· != '=') with
  | [] => (option, none)
  | _ :: value => (option, some (String.ofList value))

def read (given : Given) : List String → Option Given
  | [] => some given
  | ["--"] => some given
  | word :: rest =>
    match cutAtEquals word, rest with
    | (option, some value), rest => (given.put option value).bind (read · rest)
    | (option, none), value :: rest =>
      if isValue value then (given.put option value).bind (read · rest) else none
    | (_, none), [] => none

end Given

def Options.read (words : List String) : Option Options :=
  (Given.read {} words).bind fun given =>
    match given.level with
    | none => some { logFile := given.logFile }
    | some level =>
      (Log.Filter.ofName? level).map fun filter => { logFile := given.logFile, filter }

end UciProtocol.Launch
