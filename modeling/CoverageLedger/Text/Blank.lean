import CoverageLedger.Text.CharSet

/-!
# Blank characters

The white space of the Unicode standard, and trimming it from the ends of a text.
-/

namespace CoverageLedger.Text

/-- White space in the sense of the Unicode property of that name. -/
def blankCharacters : CharSet :=
  .ofRanges [(9, 0xd), (0x20, 0x20), (0x85, 0x85), (0xa0, 0xa0), (0x1680, 0x1680),
    (0x2000, 0x200a), (0x2028, 0x2029), (0x202f, 0x202f), (0x205f, 0x205f), (0x3000, 0x3000)]

/-- Whether a character is white space. -/
def isBlank (c : Char) : Bool := blankCharacters.contains c

/-- Drop the elements at the end of a list that pass a test. -/
def dropLastWhile {α : Type} (p : α → Bool) (l : List α) : List α := (l.reverse.dropWhile p).reverse

/-- Drop the leading blanks. -/
def trimStart (cs : List Char) : List Char := cs.dropWhile isBlank

/-- Drop the trailing blanks. -/
def trimEnd (cs : List Char) : List Char := dropLastWhile isBlank cs

/-- Drop the blanks at both ends. -/
def trim (cs : List Char) : List Char := trimEnd (trimStart cs)

end CoverageLedger.Text
