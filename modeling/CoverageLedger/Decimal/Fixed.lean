import CoverageLedger.Decimal.Shortest

/-!
# A fixed number of places

`fixed places x` writes the exact value of a number rounded to a number of decimal places, a half
going to the even neighbour.
-/

namespace CoverageLedger.Decimal

/-- A whole number with leading zeros up to a width. -/
def zeroPadded (width n : Nat) : List Char :=
  let digits := digitChars n
  List.replicate (width - digits.length) '0' ++ digits

/-- A number with a fixed, positive number of decimal places. -/
def fixed (places : Nat) (x : Binary64) : List Char :=
  let sign : List Char := if x.negative then ['-'] else []
  if x.isNaN then "NaN".toList
  else if x.isInfinite then sign ++ "inf".toList
  else
    let (num, den) := x.ratio
    let unit := Nat.pow 10 places
    let scaled := Binary64.roundDiv (num * unit) den
    sign ++ digitChars (scaled / unit) ++ '.' :: zeroPadded places (scaled % unit)

end CoverageLedger.Decimal
