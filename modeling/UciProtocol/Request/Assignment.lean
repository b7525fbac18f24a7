import UciProtocol.Arguments
import UciProtocol.Request.Error
import UciProtocol.Text.Occurrence

/-! Assignments of a value to an option: `name N value V`, then `context C` where it is for one
context only.

Names, values and contexts are free text. The name ends at the first bounded `value`; the context
begins at the last bounded `context` behind it. -/

set_option autoImplicit false

namespace UciProtocol

/-- A value for an option. The empty context stands for the value that holds in all contexts. -/
structure Assignment where
  name : String
  value : String
  context : String
  deriving DecidableEq, Repr

namespace Assignment

open Text

/-- What follows the leading `name`, which has to be set apart by a blank. -/
def afterName? : List Char → Option (List Char)
  | 'n' :: 'a' :: 'm' :: 'e' :: c :: rest => if isBlank c then some (c :: rest) else none
  | _ => none

def readValue (name text : List Char) : Except RequestError Assignment :=
  match lastBounded? "context".toList text 0 with
  | some place =>
    let context := trim place.after
    let value := trim place.before
    -- A line with neither is refused for its context.
    if context = [] then .error (.emptyContext (String.ofList name))
    else if value = [] then .error .emptyOptionValue
    else .ok ⟨String.ofList name, String.ofList value, String.ofList context⟩
  | none =>
    if text = [] then .error .emptyOptionValue
    else .ok ⟨String.ofList name, String.ofList text, ""⟩

def read (text : List Char) : Except RequestError Assignment :=
  match afterName? (trim text) with
  | none => .error .expectedName
  | some rest =>
    match firstBounded? "value".toList (trim rest) with
    | none => .error .missingValue
    | some place =>
      let name := trim place.before
      if name = [] then .error .emptyOptionName else readValue name (trim place.after)

def arguments (assignment : Assignment) : Arguments :=
  let named := (Table.empty.insert "name" assignment.name).insert "value" assignment.value
  if assignment.context = "" then named else named.insert "context" assignment.context

def ofArguments (arguments : Arguments) : Except RequestError Assignment :=
  let name := arguments.value "name"
  let value := arguments.value "value"
  if name = "" then .error .emptyOptionName
  else if value = "" then .error .emptyOptionValue
  else .ok ⟨name, value, arguments.value "context"⟩

def render (assignment : Assignment) : String :=
  s!"name {assignment.name} value {assignment.value}" ++
    if assignment.context = "" then "" else s!" context {assignment.context}"

end Assignment

end UciProtocol
