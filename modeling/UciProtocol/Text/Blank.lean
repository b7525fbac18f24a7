/-! Blank characters, and a text as the words that stand between them. -/

set_option autoImplicit false

namespace UciProtocol.Text

/-- The code points with the Unicode property White_Space, as closed ranges. -/
def blankRanges : List (Nat × Nat) :=
  [(0x09, 0x0d), (0x20, 0x20), (0x85, 0x85), (0xa0, 0xa0), (0x1680, 0x1680), (0x2000, 0x200a),
    (0x2028, 0x2029), (0x202f, 0x202f), (0x205f, 0x205f), (0x3000, 0x3000)]

def isBlank (c : Char) : Bool :=
  blankRanges.any fun range => range.1 ≤ c.toNat && c.toNat ≤ range.2

/-- Drop the longest tail whose members all satisfy `p`. -/
def dropTail {α : Type} (p : α → Bool) (text : List α) : List α :=
  (text.reverse.dropWhile p).reverse

def trimStart (text : List Char) : List Char := text.dropWhile isBlank

def trim (text : List Char) : List Char := dropTail isBlank (trimStart text)

def words (text : List Char) : List (List Char) :=
  (text.splitOnP isBlank).filter (· ≠ [])

def tokens (line : String) : List String := (words line.toList).map String.ofList

def afterFirstWord (text : List Char) : List Char :=
  (trimStart text).dropWhile (!isBlank ·)

/-- Letters outside `A`-`Z` are left as they are. -/
def lowered (text : String) : String := String.ofList (text.toList.map Char.toLower)

end UciProtocol.Text
