/-! Where paths lead.

Paths start in a working directory, which lies in the directory for temporary files, or in the root
directory. Of other directories only that of the devices is known. -/

set_option autoImplicit false

namespace UciProtocol.Launch

inductive Place where
  | root
  | devices
  | temporary
  /-- The working directory. -/
  | here
  /-- A file of the working directory, whether it is there or not. -/
  | file (name : String)
  /-- A device, or a file of the directory for temporary files. -/
  | outside
  deriving DecidableEq, Repr

namespace Place

/-- The devices that a process without a terminal can write to and never hear of again. -/
def deviceNames : List String := ["null", "zero", "full", "random", "urandom", "stderr"]

def maxNameSize : Nat := 255

def maxPathSize : Nat := 4095

def isDirectory : Place → Bool
  | root | devices | temporary | here => true
  | file _ | outside => false

/-- The directory that a directory lies in; the root directory lies in itself. -/
def parent : Place → Place
  | here => temporary
  | _ => root

def entry? (name : String) : Place → Option Place
  | root =>
    match name with
    | "dev" => some devices
    | "tmp" => some temporary
    | _ => none
  | devices => if name ∈ deviceNames then some outside else none
  | temporary => if name.utf8ByteSize ≤ maxNameSize then some outside else none
  | here => if name.utf8ByteSize ≤ maxNameSize then some (file name) else none
  | file _ | outside => none

/-- Go on from a place by one part of a path. Only a directory can be left. -/
def step? (place : Place) (part : String) : Option Place :=
  if place.isDirectory then
    match part with
    | "" | "." => some place
    | ".." => some place.parent
    | name => place.entry? name
  else none

def parts (path : String) : List String := (path.toList.splitOn '/').map String.ofList

/-- The place that a path leads to, if text can be written there. -/
def ofPath? (path : String) : Option Place := do
  guard (path.utf8ByteSize ≤ maxPathSize)
  let start := if path.toList.head? = some '/' then root else here
  let place ← (parts path).foldlM step? start
  guard !place.isDirectory
  return place

end Place

end UciProtocol.Launch
