/-!
# Numerals in text

Whole numbers as they are written in uploads, diffs and keys: decimal digits with an optional sign,
no blanks and no grouping, and refused when they leave the range of the field they are read for.
-/

namespace CoverageLedger.Text

def digit? (c : Char) : Option Nat :=
  if '0' ≤ c ∧ c ≤ '9' then some (c.toNat - '0'.toNat) else none

def hexDigit? (c : Char) : Option Nat :=
  if '0' ≤ c ∧ c ≤ '9' then some (c.toNat - '0'.toNat)
  else if 'a' ≤ c ∧ c ≤ 'f' then some (c.toNat - 'a'.toNat + 10)
  else if 'A' ≤ c ∧ c ≤ 'F' then some (c.toNat - 'A'.toNat + 10)
  else none

/-- Go on reading decimal digits to the end of the text. -/
def digitsFrom (acc : Nat) : List Char → Option Nat
  | [] => some acc
  | c :: cs =>
    match digit? c with
    | some d => digitsFrom (acc * 10 + d) cs
    | none => none

/-- The number written by one or more decimal digits. -/
def digits? : List Char → Option Nat
  | [] => none
  | cs => digitsFrom 0 cs

/-- A natural number below a bound, with an optional plus sign. -/
def natBelow? (bound : Nat) (cs : List Char) : Option Nat :=
  (digits? (match cs with | '+' :: rest => rest | _ => cs)).filter (· < bound)

/-- The values of a 32-bit field. -/
def word32 : Nat := 0x100000000

/-- The values of a 64-bit field. -/
def word64 : Nat := 0x10000000000000000

def nat32? (cs : List Char) : Option Nat := natBelow? word32 cs

def nat64? (cs : List Char) : Option Nat := natBelow? word64 cs

def int64? (cs : List Char) : Option Int :=
  match cs with
  | '-' :: rest => ((digits? rest).filter (· ≤ 0x8000000000000000)).map fun n => - (n : Int)
  | _ => (natBelow? 0x8000000000000000 cs).map Int.ofNat

end CoverageLedger.Text
