import UciProtocol.Text.Blank
import UciProtocol.Text.Utf8

/-! Lines of a byte stream and of a text. -/

set_option autoImplicit false

namespace UciProtocol.Text

/-- Cut a list behind each member that ends a line. A rest without an end is the last line. -/
def cutAfter {α : Type} (ends : α → Bool) : List α → List (List α)
  | [] => []
  | x :: rest =>
    if ends x then [x] :: cutAfter ends rest
    else
      match cutAfter ends rest with
      | [] => [[x]]
      | line :: lines => (x :: line) :: lines

def lineFeed : UInt8 := 10

/-- The lines of a byte stream, each with the line feed that ends it. -/
def byteLines (bytes : List UInt8) : List (List UInt8) := cutAfter (· == lineFeed) bytes

def lines (text : List Char) : List (List Char) := cutAfter (· == '\n') text

/-- The first line of a text behind which a line feed follows. A carriage return before the end of
the line belongs to the end. -/
def firstLine (text : String) : String :=
  let line := text.toList.takeWhile (· ≠ '\n')
  String.ofList (if line.getLast? = some '\r' then line.dropLast else line)

/-- The text of a received line, without the carriage returns and line feeds at its end. -/
def received (bytes : List UInt8) : String :=
  String.ofList (dropTail (fun c => c = '\n' || c = '\r') (Utf8.decode bytes))

end UciProtocol.Text
