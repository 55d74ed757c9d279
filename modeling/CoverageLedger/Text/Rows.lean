/-!
# Cutting text

Rows of a text, the pieces between separators, and texts with a given start.
-/

namespace CoverageLedger.Text

/-- The pieces between occurrences of a character; `piece` holds the open piece, reversed. -/
def splitGo (sep : Char) (piece : List Char) : List Char → List (List Char)
  | [] => [piece.reverse]
  | c :: cs => if c = sep then piece.reverse :: splitGo sep [] cs else splitGo sep (c :: piece) cs

/-- The pieces between occurrences of a character, at least one. -/
def splitAt (sep : Char) (cs : List Char) : List (List Char) := splitGo sep [] cs

/-- Drop one carriage return at the end. -/
def dropReturn (cs : List Char) : List Char :=
  if cs.getLast? = some '\r' then cs.dropLast else cs

/-- The rows among the pieces between line feeds: a carriage return before a line feed belongs to
the line end, and an empty piece after the last line feed is no row. -/
def rowsOfPieces : List (List Char) → List (List Char)
  | [] => []
  | [last] => if last.isEmpty then [] else [last]
  | piece :: rest => dropReturn piece :: rowsOfPieces rest

def rows (cs : List Char) : List (List Char) := rowsOfPieces (splitAt '\n' cs)

/-- The text after a given start, if it starts so. -/
def afterStart (start cs : List Char) : Option (List Char) :=
  if start.isPrefixOf cs then some (cs.drop start.length) else none

/-- The text before and after the first occurrence of a character. -/
def splitOnce (sep : Char) : List Char → Option (List Char × List Char)
  | [] => none
  | c :: cs => if c = sep then some ([], cs) else (splitOnce sep cs).map fun (a, b) => (c :: a, b)

/-- The pieces before the first few occurrences of a character, and all the rest as the last piece:
at most `n + 1` pieces. -/
def splitFirst (sep : Char) : Nat → List Char → List (List Char)
  | 0, cs => [cs]
  | n + 1, cs =>
    match splitOnce sep cs with
    | none => [cs]
    | some (a, b) => a :: splitFirst sep n b

/-- The pieces between occurrences of a text; `piece` holds the open piece, reversed, and `skip`
counts the characters of a separator still to be passed over. -/
def splitTextGo (sep : List Char) (piece : List Char) (skip : Nat) :
    List Char → List (List Char)
  | [] => [piece.reverse]
  | c :: cs =>
    match skip with
    | n + 1 => splitTextGo sep piece n cs
    | 0 =>
      if sep.isPrefixOf (c :: cs) then piece.reverse :: splitTextGo sep [] (sep.length - 1) cs
      else splitTextGo sep (c :: piece) 0 cs

/-- The pieces between occurrences of a non-empty text, taken from the left without overlap. -/
def splitText (sep cs : List Char) : List (List Char) := splitTextGo sep [] 0 cs

/-- The texts of a list with a separator between them. -/
def joinWith (sep : String) (l : List String) : String := sep.intercalate l

def blanks (n : Nat) : String := String.ofList (List.replicate n ' ')

/-- Fill a text up to a width with blanks at its end. -/
def padEnd (width : Nat) (s : String) : String := s ++ blanks (width - s.length)

/-- Fill a text up to a width with blanks at its start. -/
def padStart (width : Nat) (s : String) : String := blanks (width - s.length) ++ s

end CoverageLedger.Text
