/-!
# Double-precision numbers

A double-precision number is a sign and the *rank* of its magnitude: the magnitudes of the format in
ascending order are numbered 0, 1, 2, …, with zero first and infinity after the largest finite one.
The rank of a magnitude is the number that its exponent and fraction fields spell, so magnitudes
compare as their ranks do, and everything below is exact arithmetic on natural numbers.

* `mantissa` and `exponent` give the value of a finite number: mantissa times two to the exponent.
* `ofRatio` is the nearest number to a quotient, an even rank winning a tie.
* `mul`, `div`, `ofNat` and `ofDecimal` are that rounding applied to an exact result.
-/

namespace CoverageLedger

structure Binary64 where
  negative : Bool
  rank : Nat
  deriving DecidableEq, Repr, Inhabited

namespace Binary64

/-- The ranks that share an exponent. -/
def ranksPerExponent : Nat := 0x10000000000000

def infiniteRank : Nat := 2047 * ranksPerExponent

def leastExponent : Int := -1074

def zero : Binary64 := ⟨false, 0⟩

def one : Binary64 := ⟨false, 1023 * ranksPerExponent⟩

def infinity (negative : Bool) : Binary64 := ⟨negative, infiniteRank⟩

def nan : Binary64 := ⟨false, infiniteRank + 1⟩

def isNaN (x : Binary64) : Bool := infiniteRank < x.rank

def isFinite (x : Binary64) : Bool := x.rank < infiniteRank

def isInfinite (x : Binary64) : Bool := x.rank == infiniteRank

def isZero (x : Binary64) : Bool := x.rank == 0

def neg (x : Binary64) : Binary64 := ⟨!x.negative, x.rank⟩

/-- The whole factor of a finite magnitude. -/
def mantissa (x : Binary64) : Nat :=
  if x.rank < ranksPerExponent then x.rank else ranksPerExponent + x.rank % ranksPerExponent

/-- The power of two that goes with the mantissa. -/
def exponent (x : Binary64) : Int :=
  if x.rank < ranksPerExponent then leastExponent else x.rank / ranksPerExponent - 1075

/-! ## Order -/

def isNegative (x : Binary64) : Bool := x.negative && !x.isZero && !x.isNaN

/-- The order of magnitudes with sign: the place of a number on the line, zero being 0. -/
def place (x : Binary64) : Int := if x.negative then - (x.rank : Int) else x.rank

/-- Less than; nothing is less or greater than what is no number. -/
def lt (x y : Binary64) : Bool := !x.isNaN && !y.isNaN && x.place < y.place

def le (x y : Binary64) : Bool := !x.isNaN && !y.isNaN && x.place ≤ y.place

/-- Equal as numbers: both zeros are one number, and what is no number equals nothing. -/
def same (x y : Binary64) : Bool := !x.isNaN && !y.isNaN && x.place == y.place

/-! ## Rounding -/

/-- The quotient rounded to the nearest whole number, an even one winning a tie. -/
def roundDiv (num den : Nat) : Nat :=
  let q := num / den
  let r := num % den
  if 2 * r < den then q
  else if den < 2 * r then q + 1
  else if q % 2 = 0 then q else q + 1

/-- The greatest whole exponent of a power of two that is not above a positive quotient. -/
def floorLog2 (num den : Nat) : Int :=
  let guess : Int := (num.log2 : Int) - den.log2
  let reached : Bool :=
    if 0 ≤ guess then den <<< guess.toNat ≤ num else den ≤ num <<< (-guess).toNat
  if reached then guess else guess - 1

/-- A quotient times a power of two, as a new quotient. -/
def scaleBy (num den : Nat) (e : Int) : Nat × Nat :=
  if 0 ≤ e then (num <<< e.toNat, den) else (num, den <<< (-e).toNat)

/-- The nearest number to a quotient, an even rank winning a tie. -/
def ofRatio (negative : Bool) (num den : Nat) : Binary64 :=
  if num = 0 then ⟨negative, 0⟩
  else
    -- 53 bits before the point, fewer where the smallest exponent leaves no more
    let e := max (floorLog2 num den - 52) leastExponent
    let (n, d) := scaleBy num den (-e)
    -- a mantissa of 53 bits carries the rank of its exponent, so a round-up past it needs no care
    ⟨negative, min ((e - leastExponent).toNat * ranksPerExponent + roundDiv n d) infiniteRank⟩

def ofNat (n : Nat) : Binary64 := ofRatio false n 1

/-- The nearest number to a whole one with sign. -/
def ofInt (i : Int) : Binary64 := ofRatio (decide (i < 0)) i.natAbs 1

/-- The magnitude of a finite number as a quotient. -/
def ratio (x : Binary64) : Nat × Nat := scaleBy x.mantissa 1 x.exponent

def mul (x y : Binary64) : Binary64 :=
  let negative := x.negative != y.negative
  if x.isNaN || y.isNaN then nan
  else if x.isInfinite || y.isInfinite then
    if x.isZero || y.isZero then nan else infinity negative
  else
    let (a, b) := x.ratio
    let (c, d) := y.ratio
    ofRatio negative (a * c) (b * d)

def div (x y : Binary64) : Binary64 :=
  let negative := x.negative != y.negative
  if x.isNaN || y.isNaN then nan
  else if x.isInfinite then if y.isInfinite then nan else infinity negative
  else if y.isInfinite then ⟨negative, 0⟩
  else if y.isZero then if x.isZero then nan else infinity negative
  else
    let (a, b) := x.ratio
    let (c, d) := y.ratio
    ofRatio negative (a * d) (b * c)

/-- The nearest number to `digits` times ten to the power `e`. Powers beyond the range of the format
give infinity or zero at once, so that no huge power is formed. -/
def ofDecimal (negative : Bool) (digits : Nat) (e : Int) : Binary64 :=
  if digits = 0 then ⟨negative, 0⟩
  -- 1e309 is beyond the greatest finite number and 1e-324 below half of the smallest
  else if 400 < e then infinity negative
  else if e < -(400 + (digits.log2 : Int)) then ⟨negative, 0⟩
  else if 0 ≤ e then ofRatio negative (digits * Nat.pow 10 e.toNat) 1
  else ofRatio negative digits (Nat.pow 10 (-e).toNat)

/-! ## Whole values -/

/-- The value, when it is whole. -/
def toInt? (x : Binary64) : Option Int :=
  if x.isFinite then
    let (n, d) := x.ratio
    if n % d = 0 then some (if x.negative then - ((n / d : Nat) : Int) else ((n / d : Nat) : Int))
    else none
  else none

/-- The value without its fraction, held inside the range of a 64-bit integer. -/
def toInt64 (x : Binary64) : Int :=
  if x.isNaN then 0
  else
    let least : Nat := 0x8000000000000000
    let magnitude : Nat := if x.isInfinite then least else (let (n, d) := x.ratio; n / d)
    if x.negative then - (min magnitude least : Nat) else (min magnitude (least - 1) : Nat)

end Binary64

end CoverageLedger
