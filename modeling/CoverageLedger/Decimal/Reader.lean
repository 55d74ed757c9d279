import CoverageLedger.Decimal.Binary64
import CoverageLedger.Text.Numeral

/-!
# Reading decimals

A number in free text: an optional sign, then digits with an optional point and an optional
exponent, or one of the words for infinity and for no number in any case. There is a digit before
the exponent, on either side of the point. The value is the nearest double-precision number.
-/

namespace CoverageLedger.Decimal

open Text

/-- Read digits as far as they go: the number so far, how many there were, and the rest. -/
def takeDigits (acc count : Nat) : List Char → Nat × Nat × List Char
  | [] => (acc, count, [])
  | c :: cs =>
    match digit? c with
    | some d => takeDigits (acc * 10 + d) (count + 1) cs
    | none => (acc, count, c :: cs)

def takeSign : List Char → Bool × List Char
  | '-' :: cs => (true, cs)
  | '+' :: cs => (false, cs)
  | cs => (false, cs)

/-- What stands after the digits of a number: nothing, or an exponent. -/
def exponent? : List Char → Option Int
  | [] => some 0
  | c :: cs =>
    if c = 'e' ∨ c = 'E' then
      let (negative, rest) := takeSign cs
      (digits? rest).map fun n => if negative then - (n : Int) else n
    else none

/-- The words for numbers that have no digits. -/
def word? (negative : Bool) (cs : List Char) : Option Binary64 :=
  let lower := String.ofList (cs.map Char.toLower)
  if lower = "inf" ∨ lower = "infinity" then some (.infinity negative)
  else if lower = "nan" then some .nan
  else none

def unsigned? (negative : Bool) (cs : List Char) : Option Binary64 :=
  let (whole, wholeCount, rest) := takeDigits 0 0 cs
  let (all, fractionCount, rest) :=
    match rest with
    | '.' :: rest => takeDigits whole 0 rest
    | rest => (whole, 0, rest)
  if wholeCount + fractionCount = 0 then word? negative cs
  else (exponent? rest).map fun e => .ofDecimal negative all (e - fractionCount)

def read? (cs : List Char) : Option Binary64 :=
  let (negative, rest) := takeSign cs
  unsigned? negative rest

end CoverageLedger.Decimal
