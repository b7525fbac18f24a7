import UciProtocol.Table
import UciProtocol.Text.Blank

/-! The keyword arguments of a command line.

A keyword opens a group that takes every word up to the next keyword. A later group of the same
keyword replaces an earlier one. -/

set_option autoImplicit false

namespace UciProtocol

structure Group where
  keyword : String
  words : List String
  deriving DecidableEq, Repr

namespace Group

def tokens (group : Group) : List String := group.keyword :: group.words

end Group

/-- The value of each keyword that is given. A keyword given without words has the empty value. -/
abbrev Arguments := Table String

namespace Arguments

def contains (arguments : Arguments) (keyword : String) : Bool :=
  (arguments.get? keyword).isSome

def value (arguments : Arguments) (keyword : String) : String :=
  (arguments.get? keyword).getD ""

end Arguments

end UciProtocol
