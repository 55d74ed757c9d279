import CoverageLedger.Text.Rows

/-!
# Ranges of line numbers

Uncovered lines are shown as ranges. A short gap between two of them is bridged when none of its
lines could have been covered at all.
-/

namespace CoverageLedger

/-- The greatest number of lines between two ranges that may be bridged. -/
def widestBridge : Nat := 2

def between (a b : Nat) : List Nat := (List.range (b - (a + 1))).map (a + 1 + ·)

/-- Whether a range that ends at one number goes on to another. -/
def bridges (countable : List Nat) (last next : Nat) : Bool :=
  next - last - 1 ≤ widestBridge && (between last next).all fun n => !countable.contains n

/-- The ranges of ascending numbers, after an open range. -/
def lineRangesFrom (countable : List Nat) (first last : Nat) : List Nat → List (Nat × Nat)
  | [] => [(first, last)]
  | n :: rest =>
    if bridges countable last n then lineRangesFrom countable first n rest
    else (first, last) :: lineRangesFrom countable n n rest

/-- The ranges of ascending numbers, given all numbers that count, ascending too. -/
def lineRanges (lines countable : List Nat) : List (Nat × Nat) :=
  match lines with
  | [] => []
  | n :: rest => lineRangesFrom countable n n rest

def rangeText (range : Nat × Nat) : String :=
  if range.1 = range.2 then toString range.1 else toString range.1 ++ "-" ++ toString range.2

def lineRangesText (lines countable : List Nat) : String :=
  Text.joinWith ", " ((lineRanges lines countable).map rangeText)

end CoverageLedger
