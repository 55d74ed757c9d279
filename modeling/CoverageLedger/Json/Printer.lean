import CoverageLedger.Json.Basic
import CoverageLedger.Decimal.Shortest

/-!
# Writing JSON

The compact form: no blanks, quotation marks and backslashes escaped, control characters escaped by
name where they have one and by number otherwise, and everything else as it is. Numbers that are not
whole have the fewest digits that read back, and are never written like a whole number.
-/

namespace CoverageLedger.Json

/-- A number is written without an exponent from a hundred-thousandth up to ten to the sixteenth,
always with a point; an exponent always has a sign. -/
def numberLayout : Decimal.Layout := ⟨-5, 16, ['.', '0'], ['+']⟩

def hexDigit (n : Nat) : Char := if n < 10 then Char.ofNat (48 + n) else Char.ofNat (87 + n)

def escapeChar (c : Char) : List Char :=
  if c = '"' then ['\\', '"']
  else if c = '\\' then ['\\', '\\']
  else if c = '\n' then ['\\', 'n']
  else if c = '\r' then ['\\', 'r']
  else if c = '\t' then ['\\', 't']
  else if c.toNat = 8 then ['\\', 'b']
  else if c.toNat = 12 then ['\\', 'f']
  else if c.toNat < 32 then
    ['\\', 'u', '0', '0', hexDigit (c.toNat / 16), hexDigit (c.toNat % 16)]
  else [c]

def quoted (s : String) : List Char := '"' :: (s.toList.flatMap escapeChar ++ ['"'])

/-- A number that is not whole; without a finite value it is null. -/
def floatChars (x : Binary64) : List Char :=
  if x.isFinite then
    (if x.negative then ['-'] else []) ++ numberLayout.render (Decimal.shortest x)
  else "null".toList

mutual

def chars : Json → List Char
  | .null => "null".toList
  | .bool b => if b then "true".toList else "false".toList
  | .int i => Decimal.intChars [] i
  | .float x => floatChars x
  | .string s => quoted s
  | .array [] => ['[', ']']
  | .array (j :: rest) => '[' :: (j.chars ++ itemChars rest)
  | .object [] => ['{', '}']
  | .object ((k, j) :: rest) => '{' :: (quoted k ++ ':' :: (j.chars ++ fieldChars rest))

/-- The items of an array after the first, and its end. -/
def itemChars : List Json → List Char
  | [] => [']']
  | j :: rest => ',' :: (j.chars ++ itemChars rest)

/-- The fields of an object after the first, and its end. -/
def fieldChars : List (String × Json) → List Char
  | [] => ['}']
  | (k, j) :: rest => ',' :: (quoted k ++ ':' :: (j.chars ++ fieldChars rest))

end

def render (j : Json) : String := String.ofList j.chars

end CoverageLedger.Json
