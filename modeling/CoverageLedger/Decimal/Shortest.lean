import CoverageLedger.Decimal.Binary64

/-!
# The fewest digits that read back

`shortest x` is the decimal with the fewest digits that `Binary64.ofDecimal` reads as `x`; of two
with equally few digits it is the nearer one, and of two equally near ones the even one.
`Layout.render` writes such a decimal out, plainly or with an exponent.
-/

namespace CoverageLedger

/-- A decimal: its digits as one whole number, and the power of ten that the last digit stands
for. -/
structure Decimal where
  digits : Nat
  power : Int
  deriving DecidableEq, Repr

namespace Decimal

def digitChars (n : Nat) : List Char := Nat.toDigits 10 n

def digitCount (n : Nat) : Nat := (digitChars n).length

/-- Move zeros at the end of the digits into the power. -/
def trimZeros : Nat → Decimal → Decimal
  | 0, d => d
  | fuel + 1, d =>
    if d.digits ≠ 0 ∧ d.digits % 10 = 0 then trimZeros fuel ⟨d.digits / 10, d.power + 1⟩ else d

/-- Ten to this power is the least power of ten above a positive quotient. -/
def topPower (num den : Nat) : Int :=
  if den ≤ num then digitCount (num / den)
  else 1 - (digitCount ((den + num - 1) / num - 1) : Int)

/-- The two neighbours of a quotient among the multiples of a power of ten, the nearer one first. -/
def neighbours (num den : Nat) (power : Int) : List Nat :=
  let (n, d) :=
    if 0 ≤ power then (num, den * Nat.pow 10 power.toNat)
    else (num * Nat.pow 10 (-power).toNat, den)
  let low := n / d
  let rest := n % d
  if 2 * rest < d ∨ (2 * rest = d ∧ low % 2 = 0) then [low, low + 1] else [low + 1, low]

/-- Search upwards from a number of digits for a decimal that reads back as a magnitude. -/
def searchFrom (x : Binary64) (num den : Nat) (top : Int) : Nat → Nat → Option Decimal
  | 0, _ => none
  | fuel + 1, count =>
    -- of the grid with this many digits only the two neighbours can read back
    let power := top - count
    match (neighbours num den power).find? fun n => Binary64.ofDecimal false n power == x with
    | some n => some ⟨n, power⟩
    | none => searchFrom x num den top fuel (count + 1)

/-- Every digit of a magnitude: a finite number is a whole multiple of a power of one half, and so a
decimal. -/
def exact (x : Binary64) : Decimal :=
  if 0 ≤ x.exponent then ⟨x.mantissa <<< x.exponent.toNat, 0⟩
  else ⟨x.mantissa * Nat.pow 5 (-x.exponent).toNat, x.exponent⟩

/-- The decimal with the fewest digits that reads back as the magnitude of a finite number.
Seventeen digits always suffice. -/
def shortest (x : Binary64) : Decimal :=
  let magnitude : Binary64 := ⟨false, x.rank⟩
  let (num, den) := magnitude.ratio
  if num = 0 then ⟨0, 0⟩
  else
    let found := (searchFrom magnitude num den (topPower num den) 17 1).getD (exact magnitude)
    trimZeros (digitCount found.digits) found

/-- How decimals are laid out. -/
structure Layout where
  /-- The least power of ten of a leading digit that is written without an exponent. -/
  plainFrom : Int
  /-- The least power of ten of a leading digit above those. -/
  plainBelow : Int
  /-- What is written after a whole number. -/
  wholeEnd : List Char
  /-- The sign of an exponent that is not negative. -/
  exponentPlus : List Char

def intChars (plus : List Char) (i : Int) : List Char :=
  (if i < 0 then ['-'] else plus) ++ digitChars i.natAbs

def Layout.render (layout : Layout) (d : Decimal) : List Char :=
  let digits := digitChars d.digits
  let lead : Int := d.power + digits.length - 1
  if d.digits = 0 then '0' :: layout.wholeEnd
  -- with an exponent: a point after the first digit, if there are more
  else if lead < layout.plainFrom ∨ layout.plainBelow ≤ lead then
    (match digits with
      | [] => []
      | [first] => [first]
      | first :: rest => first :: '.' :: rest) ++ 'e' :: intChars layout.exponentPlus lead
  else if 0 ≤ d.power then digits ++ List.replicate d.power.toNat '0' ++ layout.wholeEnd
  else if 0 ≤ lead then
    digits.take (lead + 1).toNat ++ '.' :: digits.drop (lead + 1).toNat
  else '0' :: '.' :: List.replicate (-lead - 1).toNat '0' ++ digits

end Decimal

end CoverageLedger
