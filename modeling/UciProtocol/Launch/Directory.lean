import UciProtocol.Launch.Place

/-! A working directory that holds files and no directories. -/

set_option autoImplicit false

namespace UciProtocol.Launch

structure Directory where
  files : List (String × String) := []
  deriving DecidableEq, Repr

namespace Directory

def content? (directory : Directory) (name : String) : Option String :=
  directory.files.lookup name

/-- The text at the end of a path. Outside the directory no text is kept. -/
def read? (directory : Directory) (path : String) : Option String := do
  match ← Place.ofPath? path with
  | .file name => directory.content? name
  | _ => some ""

def append (directory : Directory) (name text : String) : Directory :=
  ⟨(name, (directory.content? name).getD "" ++ text) ::
    directory.files.filter (·.1 ≠ name)⟩

/-- Write text to a place. What leaves the directory is not kept. -/
def write (directory : Directory) (place : Place) (text : String) : Directory :=
  match place with
  | .file name => directory.append name text
  | _ => directory

end Directory

end UciProtocol.Launch
