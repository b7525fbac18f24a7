/-! Finding a keyword in free text.

A keyword counts only where it is bounded: a separator or an edge of the text stands on either
side. Separators are the ASCII blanks, so a keyword next to another blank of Unicode is part of the
text around it. -/

set_option autoImplicit false

namespace UciProtocol.Text

/-- The characters that set a keyword apart. A vertical tab is a blank but no separator. -/
def isSeparator (c : Char) : Bool :=
  c = '\t' || c = '\n' || c = '\x0c' || c = '\r' || c = ' '

def utf8Size : List Char → Nat
  | [] => 0
  | c :: rest => c.utf8Size + utf8Size rest

/-- A place where a word stands in a text: the characters passed on the way to it, the nearest
first, and what comes after it. -/
structure Occurrence where
  passed : List Char
  after : List Char
  deriving DecidableEq, Repr

namespace Occurrence

def before (o : Occurrence) : List Char := o.passed.reverse

def offset (o : Occurrence) : Nat := utf8Size o.passed

def Bounded (o : Occurrence) : Prop :=
  o.passed.head?.all isSeparator ∧ o.after.head?.all isSeparator

instance (o : Occurrence) : Decidable o.Bounded := inferInstanceAs (Decidable (_ ∧ _))

end Occurrence

/-- The places where `word` stands in what is left of a text, from the left; places may overlap. -/
def occurrencesFrom (word passed : List Char) : List Char → List Occurrence
  | [] => if word = [] then [⟨passed, []⟩] else []
  | c :: rest =>
    let later := occurrencesFrom word (c :: passed) rest
    if word.isPrefixOf (c :: rest) then ⟨passed, (c :: rest).drop word.length⟩ :: later else later

def occurrences (word text : List Char) : List Occurrence := occurrencesFrom word [] text

/-- The places that a scan meets when it goes on behind each place it has met. `distance` says how
far along the scan a place begins, and `reached` how far the scan has come. -/
def metFrom (width : Nat) (distance : Occurrence → Nat) (reached : Nat) :
    List Occurrence → List Occurrence
  | [] => []
  | o :: rest =>
    if distance o < reached then metFrom width distance reached rest
    else o :: metFrom width distance (distance o + width) rest

def metFromLeft (word text : List Char) : List Occurrence :=
  metFrom word.length (·.passed.length) 0 (occurrences word text)

def metFromRight (word text : List Char) : List Occurrence :=
  metFrom word.length (·.after.length) 0 (occurrences word text).reverse

/-- The leftmost bounded place met from the left. -/
def firstBounded? (word text : List Char) : Option Occurrence :=
  if word = [] then none else (metFromLeft word text).find? (·.Bounded)

/-- The rightmost bounded place met from the right, of those at byte offset `least` or later. -/
def lastBounded? (word text : List Char) (least : Nat) : Option Occurrence :=
  if word = [] then none
  else ((metFromRight word text).takeWhile (least ≤ ·.offset)).find? (·.Bounded)

end UciProtocol.Text
