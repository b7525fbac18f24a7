import UciProtocol.Command
import UciProtocol.Request.Assignment

/-! A line as a command with its arguments. -/

set_option autoImplicit false

namespace UciProtocol

structure Invocation where
  command : Command
  arguments : Arguments
  deriving DecidableEq, Repr

namespace Invocation

/-- What the words so far have come to, and the keyword that takes further words. -/
structure Intake where
  arguments : Arguments := .empty
  target : Option String := none
  deriving DecidableEq, Repr

/-- Take one more word. A keyword begins anew; any other word goes behind those of the keyword. -/
def Intake.take (command : Command) (intake : Intake) (word : String) :
    Except RequestError Intake :=
  if word ∈ command.keywords then .ok ⟨intake.arguments.insert word "", some word⟩
  else
    match intake.target with
    | none => .error (.unexpectedToken word command.name)
    | some keyword =>
      let value := intake.arguments.value keyword
      let longer := if value = "" then word else value ++ " " ++ word
      .ok { intake with arguments := intake.arguments.insert keyword longer }

def ofTokens (command : Command) (words : List String) : Except RequestError Invocation :=
  (words.foldlM (Intake.take command) {}).map fun intake => ⟨command, intake.arguments⟩

/-- Read a line. A blank line is no invocation. The text behind `setoption` has a grammar of its
own; behind every other command only the words count. -/
def ofLine (line : String) : Except RequestError (Option Invocation) :=
  match Text.tokens line with
  | [] => .ok none
  | name :: words =>
    match Command.ofName? name with
    | none => .error (.unknownCommand name line)
    | some .setOption =>
      -- The words would not do: blanks inside a name or a value are kept.
      (Assignment.read (Text.afterFirstWord line.toList)).map fun assignment =>
        some ⟨.setOption, assignment.arguments⟩
    | some command => (ofTokens command words).map some

end Invocation

end UciProtocol
