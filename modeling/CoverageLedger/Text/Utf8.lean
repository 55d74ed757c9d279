/-!
# UTF-8

Reading bytes as text. When they are no text, `Utf8Fault` says where the text ends and how many
bytes after it are wrong: a fault lies in the first byte that no continuation of the bytes before it
allows.
-/

namespace CoverageLedger

/-- Why bytes are no UTF-8 text. -/
inductive Utf8Fault where
  /-- So many bytes from an index on start no character. -/
  | invalid (length index : Nat)
  /-- The bytes end inside the character that starts at an index. -/
  | incomplete (index : Nat)
  deriving DecidableEq, Repr

namespace Utf8Fault

/-- The index of the first byte that is not part of the text. -/
def index : Utf8Fault → Nat
  | .invalid _ i => i
  | .incomplete i => i

def message : Utf8Fault → String
  | .invalid length index =>
    "invalid utf-8 sequence of " ++ toString length ++ " bytes from index " ++ toString index
  | .incomplete index => "incomplete utf-8 byte sequence from index " ++ toString index

end Utf8Fault

namespace Text

/-- A byte inside a character. -/
def continues (b : UInt8) : Bool := 0x80 ≤ b && b < 0xC0

/-- The second bytes that may follow a first byte of a longer character. -/
def secondAllowed (first second : UInt8) : Bool :=
  if first == 0xE0 then 0xA0 ≤ second && second < 0xC0
  else if first == 0xED then 0x80 ≤ second && second < 0xA0
  else if first == 0xF0 then 0x90 ≤ second && second < 0xC0
  else if first == 0xF4 then 0x80 ≤ second && second < 0x90
  else continues second

/-- The number of bytes of a character that starts with a byte, zero where none does. -/
def characterWidth (first : UInt8) : Nat :=
  if first < 0x80 then 1
  else if first < 0xC2 then 0
  else if first < 0xE0 then 2
  else if first < 0xF0 then 3
  else if first < 0xF5 then 4
  else 0

/-- How many bytes of a character are right from its second byte on, and whether the bytes end
there: `left` bytes are still to come. -/
def goodBytes (first : UInt8) (second : Bool) : Nat → List UInt8 → Nat × Bool
  | 0, _ => (0, false)
  | _ + 1, [] => (0, true)
  | left + 1, b :: bs =>
    if (if second then secondAllowed first b else continues b) then
      let (n, ended) := goodBytes first false left bs
      (n + 1, ended)
    else (0, false)

/-- The first fault from an index on; `skip` bytes of the present character are passed over. -/
def firstFault (index skip : Nat) : List UInt8 → Option Utf8Fault
  | [] => none
  | b :: bs =>
    match skip with
    | n + 1 => firstFault (index + 1) n bs
    | 0 =>
      let width := characterWidth b
      if width = 0 then some (.invalid 1 index)
      else
        -- the first byte may narrow what the second can be, no byte narrows the third
        let (good, ended) := goodBytes b true (width - 1) bs
        if ended then some (.incomplete index)
        else if good + 1 < width then some (.invalid (good + 1) index)
        else firstFault (index + 1) (width - 1) bs

/-- The text that bytes hold. -/
def decodeUtf8 (bytes : ByteArray) : Except Utf8Fault String :=
  match String.fromUTF8? bytes with
  | some s => .ok s
  | none => .error ((firstFault 0 0 bytes.toList).getD (.incomplete bytes.size))

end Text

end CoverageLedger
