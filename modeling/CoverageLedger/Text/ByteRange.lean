import CoverageLedger.Text.CharSet

/-!
# Characters as ranges of bytes

In UTF-8, the characters of a set are sequences of one to four bytes. `CharSet.byteRanges` splits a
set into runs of characters that differ from each other in such a way that every byte may take any
value in a range of its own, whatever the bytes beside it are.
-/

namespace CoverageLedger

/-- The bytes from one to another. -/
structure ByteRange where
  first : UInt8
  last : UInt8
  deriving DecidableEq, Repr

namespace Text

/-- Characters with bytes of the same count, and how many of them share all bytes but the last one,
the last two, and so on. No characters are in the gap in the middle. -/
structure ByteZone where
  first : Nat
  last : Nat
  blocks : List Nat

/-- All characters by the count of their bytes. -/
def byteZones : List ByteZone :=
  [⟨0, 0x7f, []⟩, ⟨0x80, 0x7ff, [64]⟩, ⟨0x800, 0xd7ff, [64, 64 * 64]⟩,
   ⟨0xe000, 0xffff, [64, 64 * 64]⟩, ⟨0x10000, 0x10ffff, [64, 64 * 64, 64 * 64 * 64]⟩]

/-- Split a range into runs that lie in one block or consist of whole blocks, by ever larger
blocks. -/
def wholeBlocks : List Nat → Nat → Nat → List (Nat × Nat)
  | [], first, last => [(first, last)]
  | block :: larger, first, last =>
    if first / block = last / block then [(first, last)]
    else
      -- whole blocks go from `start` up to `stop`
      let start := (first + block - 1) / block * block
      let stop := (last + 1) / block * block
      (if first < start then [(first, start - 1)] else []) ++
        (if start < stop then wholeBlocks larger start (stop - 1) else []) ++
        (if stop ≤ last then [(stop, last)] else [])

/-- The bytes of two characters side by side. -/
def byteRangesOf (run : Nat × Nat) : List ByteRange :=
  (String.utf8EncodeChar (Char.ofNat run.1)).zipWith ByteRange.mk
    (String.utf8EncodeChar (Char.ofNat run.2))

end Text

/-- The characters of a set as sequences of byte ranges, ascending. -/
def CharSet.byteRanges (s : CharSet) : List (List ByteRange) :=
  s.ranges.flatMap fun (first, last) =>
    Text.byteZones.flatMap fun zone =>
      let (first, last) := (max first zone.first, min last zone.last)
      if last < first then [] else (Text.wholeBlocks zone.blocks first last).map Text.byteRangesOf

end CoverageLedger
