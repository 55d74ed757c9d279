import CoverageLedger.Text.Blank
import CoverageLedger.Text.Numeral

/-!
# Names and strings of TOML

Blanks, comments and line breaks, the four kinds of strings, and dotted names. Whatever is read
stands at the start of a text, and what follows it is returned.
-/

namespace CoverageLedger.Toml

/-! ## Blanks and comments -/

def isSpace (c : Char) : Bool := c == ' ' || c == '\t'

def skipSpaces (cs : List Char) : List Char := cs.dropWhile isSpace

/-- Whether a character may stand in strings and comments. -/
def isPlain (c : Char) : Bool := c == '\t' || (32 ≤ c.toNat && c.toNat != 127)

/-- The rest of a text after a line break. -/
def afterBreak? : List Char → Option (List Char)
  | '\n' :: rest => some rest
  | '\r' :: '\n' :: rest => some rest
  | _ => none

/-- The end of a row: blanks, a comment, and a line break or the end of the text. -/
def endOfRow? (cs : List Char) : Option (List Char) :=
  let rest := match skipSpaces cs with
    | '#' :: comment => comment.dropWhile isPlain
    | rest => rest
  if rest.isEmpty then some [] else afterBreak? rest

/-- Skip blanks and line breaks, and comments if `comments` holds. `fuel` is as long as the text. -/
def skipRows (comments : Bool) : Nat → List Char → List Char
  | 0, cs => cs
  | fuel + 1, cs =>
    let cs := skipSpaces cs
    match afterBreak? cs, cs with
    | some rest, _ => skipRows comments fuel rest
    | none, '#' :: rest => if comments then skipRows comments fuel (rest.dropWhile isPlain) else cs
    | none, _ => cs

/-! ## Strings -/

/-- The character of so many hexadecimal digits. -/
def codePoint? (count : Nat) (cs : List Char) : Option (Char × List Char) := do
  let digits := cs.take count
  if digits.length < count then none
  let n ← digits.foldl (fun n c => do return (← n) * 16 + (← Text.hexDigit? c)) (some 0)
  if n.isValidChar then some (Char.ofNat n, cs.drop count) else none

/-- The character of an escape, after its backslash. -/
def escape? : List Char → Option (Char × List Char)
  | 'b' :: rest => some (Char.ofNat 8, rest)
  | 't' :: rest => some ('\t', rest)
  | 'n' :: rest => some ('\n', rest)
  | 'f' :: rest => some (Char.ofNat 12, rest)
  | 'r' :: rest => some ('\r', rest)
  | '"' :: rest => some ('"', rest)
  | '\\' :: rest => some ('\\', rest)
  | 'u' :: rest => codePoint? 4 rest
  | 'U' :: rest => codePoint? 8 rest
  | _ => none

/-- Where a string ends and what it may hold. -/
structure StringKind where
  quote : Char
  /-- A backslash starts an escape. -/
  escapes : Bool
  /-- Three quotes end the string, and line breaks belong to it. -/
  manyLines : Bool

/-- The text left after the quotes that end a string, and the quotes before them that belong to the
string: up to two, when three end it. -/
def StringKind.close? (k : StringKind) (cs : List Char) : Option (List Char × List Char) :=
  let quotes := cs.takeWhile (· == k.quote)
  if !k.manyLines then if quotes.isEmpty then none else some ([], cs.drop 1)
  else if quotes.length < 3 then none
  else
    let kept := min (quotes.length - 3) 2
    some (quotes.take kept, cs.drop (kept + 3))

/-- One or no character of a string that goes on. A backslash at the end of a row drops the line
break and all blanks after it. -/
def StringKind.content? (k : StringKind) (cs : List Char) : Option (List Char × List Char) :=
  match if k.manyLines then afterBreak? cs else none, cs with
  | some rest, _ => some (['\n'], rest)
  | none, c :: rest =>
    if c = '\\' ∧ k.escapes then
      if k.manyLines ∧ (afterBreak? (skipSpaces rest)).isSome then
        some ([], skipRows false rest.length rest)
      else (escape? rest).map fun (c, rest) => ([c], rest)
    else if isPlain c then some ([c], rest)
    else none
  | none, [] => none

/-- The rest of a string; `acc` is what it holds so far, the last character first, and `fuel` is
more than the length of the text. -/
def StringKind.rest? (k : StringKind) : Nat → List Char → List Char → Option (String × List Char)
  | 0, _, _ => none
  | fuel + 1, acc, cs =>
    match k.close? cs with
    | some (kept, rest) => some (String.ofList (kept ++ acc).reverse, rest)
    | none => do
      let (content, rest) ← k.content? cs
      k.rest? fuel (content ++ acc) rest

/-- The rest of a string in one row, after its first quote. -/
def rowString? (quote : Char) (cs : List Char) : Option (String × List Char) :=
  let kind : StringKind := { quote, escapes := quote == '"', manyLines := false }
  kind.rest? (cs.length + 1) [] cs

/-- The rest of a string of many rows, after its first three quotes. A line break right after them
is dropped. -/
def rowsString? (quote : Char) (cs : List Char) : Option (String × List Char) :=
  let kind : StringKind := { quote, escapes := quote == '"', manyLines := true }
  kind.rest? (cs.length + 1) [] ((afterBreak? cs).getD cs)

/-- A string of any kind, if the text starts with a quote. -/
def string? : List Char → Option (Option (String × List Char))
  | '"' :: '"' :: '"' :: rest => some (rowsString? '"' rest)
  | '\'' :: '\'' :: '\'' :: rest => some (rowsString? '\'' rest)
  | '"' :: rest => some (rowString? '"' rest)
  | '\'' :: rest => some (rowString? '\'' rest)
  | _ => none

/-! ## Names -/

/-- A dotted name. -/
abbrev Path := List String

/-- A dotted name has fewer parts than this, and values are nested less deep. -/
def nestingLimit : Nat := 80

/-- Whether a character may stand in a name without quotation marks. -/
def inBareName (c : Char) : Bool := c.isAlphanum || c == '_' || c == '-'

def name? (cs : List Char) : Option (String × List Char) :=
  match cs with
  | '"' :: rest => rowString? '"' rest
  | '\'' :: rest => rowString? '\'' rest
  | _ =>
    let bare := cs.takeWhile inBareName
    if bare.isEmpty then none else some (String.ofList bare, cs.dropWhile inBareName)

/-- The parts of a dotted name. -/
def parts? : Nat → List Char → Option (Path × List Char)
  | 0, _ => none
  | fuel + 1, cs => do
    let (name, rest) ← name? (skipSpaces cs)
    match skipSpaces rest with
    | '.' :: rest =>
      let (path, rest) ← parts? fuel rest
      return (name :: path, rest)
    | rest => return ([name], rest)

def path? (cs : List Char) : Option (Path × List Char) := do
  let (path, rest) ← parts? (cs.length + 1) cs
  if path.length < nestingLimit then some (path, rest) else none

end CoverageLedger.Toml
