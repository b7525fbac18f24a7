import UciProtocol.Text.Line

/-! Byte sources, read line by line.

A source delivers its bytes in pieces, as a buffered reader does. Where the pieces are cut has no
bearing on the lines. -/

set_option autoImplicit false

namespace UciProtocol

open Text

/-- The bytes to come, in pieces. A source that fails does so behind its last byte, where another
one ends. -/
structure Source where
  pieces : List (List UInt8)
  fails : Bool := false
  deriving DecidableEq, Repr

namespace Source

def failure : String := "read refused"

abbrev BufferSize := { size : Nat // 0 < size }

instance (n : Nat) : OfNat BufferSize (n + 1) := ⟨n + 1, n.succ_pos⟩

def cut (size : BufferSize) : List UInt8 → List (List UInt8)
  | [] => []
  | byte :: rest =>
    (byte :: rest.take (size.val - 1)) :: cut size (rest.drop (size.val - 1))
termination_by bytes => bytes.length
decreasing_by simp only [List.length_drop, List.length_cons]; omega

def ofBytes (bytes : List UInt8) (size : BufferSize) (fails : Bool) : Source :=
  ⟨cut size bytes, fails⟩

def size (source : Source) : Nat := source.pieces.flatten.length

/-- The bytes up to a line feed, and the pieces that are left behind it; all bytes and `none` where
there is no line feed. -/
def lineFrom : List (List UInt8) → List UInt8 × Option (List (List UInt8))
  | [] => ([], none)
  | piece :: rest =>
    match piece.dropWhile (· != lineFeed) with
    | [] =>
      let (line, left) := lineFrom rest
      (piece ++ line, left)
    | last :: back => (piece.takeWhile (· != lineFeed) ++ [last], some (back :: rest))

inductive Read where
  | line (bytes : List UInt8) (rest : Source)
  | ended
  | failed
  deriving DecidableEq, Repr

/-- Read a line with its line feed. The last line may have none, unless the source fails. -/
def read (source : Source) : Read :=
  match lineFrom source.pieces with
  | (bytes, some rest) => .line bytes { source with pieces := rest }
  | (bytes, none) =>
    if source.fails then .failed
    else if bytes = [] then .ended
    else .line bytes { source with pieces := [] }

/-- Reading a line takes bytes from a source and loses none. -/
theorem lineFrom_flatten (pieces : List (List UInt8)) :
    (lineFrom pieces).1 ++ ((lineFrom pieces).2.getD []).flatten = pieces.flatten := by
  induction pieces with
  | nil => simp [lineFrom]
  | cons piece rest ih =>
    rw [lineFrom]
    split
    next => simp [ih]
    next last back same =>
      have whole : piece.takeWhile (· != lineFeed) ++ piece.dropWhile (· != lineFeed) = piece :=
        List.takeWhile_append_dropWhile
      rw [same] at whole
      simp only [Option.getD_some, List.flatten_cons, List.append_assoc, List.singleton_append]
      rw [← List.cons_append, ← List.append_assoc, whole]

/-- A line that ends with a line feed is not empty. -/
theorem lineFrom_ne_nil {pieces rest : List (List UInt8)}
    (some_rest : (lineFrom pieces).2 = some rest) : (lineFrom pieces).1 ≠ [] := by
  induction pieces with
  | nil => simp [lineFrom] at some_rest
  | cons piece pieces ih =>
    rw [lineFrom] at some_rest ⊢
    split
    next same =>
      rw [same] at some_rest
      simp [ih some_rest]
    next => simp

theorem read_size {source rest : Source} {bytes : List UInt8}
    (line : source.read = .line bytes rest) : bytes.length + rest.size = source.size := by
  have whole := congrArg List.length (lineFrom_flatten source.pieces)
  rw [read] at line
  split at line
  next same => simp_all [size]; grind
  next same =>
    split at line
    · simp at line
    · split at line
      · simp at line
      · simp_all [size]; grind

theorem read_ne_nil {source rest : Source} {bytes : List UInt8}
    (line : source.read = .line bytes rest) : bytes ≠ [] := by
  rw [read] at line
  split at line
  next same =>
    cases line
    have : (lineFrom source.pieces).1 ≠ [] := lineFrom_ne_nil (congrArg Prod.snd same)
    rwa [same] at this
  next same =>
    split at line
    · simp at line
    · split at line
      · simp at line
      · cases line; assumption

theorem read_smaller {source rest : Source} {bytes : List UInt8}
    (line : source.read = .line bytes rest) : rest.size < source.size := by
  have total := read_size line
  have := List.length_pos_iff.2 (read_ne_nil line)
  omega

end Source

end UciProtocol
