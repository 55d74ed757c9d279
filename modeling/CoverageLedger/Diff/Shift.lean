import CoverageLedger.Diff

/-!
# Following line numbers through a diff

`ShiftPlan.build?` turns the hunks of one file into a map of line numbers from one side of the diff
to the other. Lines inside a hunk are mapped one by one and removed ones have no image; lines
outside are moved by the lengths of the hunks before them. Hunks that do not fit together give no
plan.
-/

namespace CoverageLedger

inductive Direction where
  | forward
  | backward
  deriving DecidableEq, Repr

namespace HunkSpan

/-- The start and length on the side that numbers come from. -/
def source (s : HunkSpan) : Direction → Nat × Nat
  | .forward => (s.oldStart, s.oldLength)
  | .backward => (s.newStart, s.newLength)

/-- The start and length on the side that numbers go to. -/
def target (s : HunkSpan) : Direction → Nat × Nat
  | .forward => (s.newStart, s.newLength)
  | .backward => (s.oldStart, s.oldLength)

end HunkSpan

/-- What a line of a hunk is, seen in a direction: backward, added lines go away. -/
def LineMark.seen (direction : Direction) : LineMark → LineMark
  | .kept => .kept
  | .added => match direction with | .forward => .added | .backward => .removed
  | .removed => match direction with | .forward => .removed | .backward => .added

/-- The part of a plan that one hunk makes: the lines of its source side from `start` up to `stop`,
where each goes, and by how much later lines move. -/
structure HunkShift where
  start : Nat
  stop : Nat
  moved : List (Nat × Option Nat)
  offset : Int
  deriving DecidableEq, Repr

def bounded? (fault : HunkFault) (n : Nat) : Except HunkFault Nat :=
  if n < Text.word32 then .ok n else .error fault

namespace HunkShift

/-- The images of the lines of a hunk, and where both sides end. -/
def walk (direction : Direction) (fault : HunkFault) (source target : Nat) :
    List String → Except HunkFault (List (Nat × Option Nat) × Nat × Nat)
  | [] => .ok ([], source, target)
  | line :: rest =>
    match (LineMark.of line).seen direction with
    | .removed => do
      let next ← bounded? fault (source + 1)
      let (moved, ends) ← walk direction fault next target rest
      return ((source, none) :: moved, ends)
    | .added => do
      let next ← bounded? fault (target + 1)
      walk direction fault source next rest
    | .kept => do
      let nextSource ← bounded? fault (source + 1)
      let nextTarget ← bounded? fault (target + 1)
      let (moved, ends) ← walk direction fault nextSource nextTarget rest
      return ((source, some target) :: moved, ends)

/-- The first line of a side. The header of an empty side names the line before it. -/
def sideStart (fault : HunkFault) (start length : Nat) : Except HunkFault Nat :=
  if length = 0 then bounded? fault (start + 1) else .ok start

/-- The part of a plan that a hunk makes, after the hunks before it have ended at a line. -/
def ofHunk? (direction : Direction) (earlierStop : Nat) (h : Hunk) :
    Except HunkFault HunkShift := do
  let past := HunkFault.pastLastLine h.header
  let span ← h.span?
  let (sourceStart, sourceLength) := span.source direction
  let (targetStart, targetLength) := span.target direction
  let sourceStart ← sideStart past sourceStart sourceLength
  let targetStart ← sideStart past targetStart targetLength
  let sourceStop ← bounded? past (sourceStart + sourceLength)
  let targetStop ← bounded? past (targetStart + targetLength)
  -- hunks come in the order of their source lines
  if sourceStart < earlierStop then throw (.overlap sourceStart)
  let (moved, source, target) ← walk direction past sourceStart targetStart h.lines
  if source ≠ sourceStop ∨ target ≠ targetStop then throw (.lengths h.header)
  return ⟨sourceStart, source, moved, (targetLength : Int) - sourceLength⟩

end HunkShift

/-- A map of line numbers from one side of a diff to the other. -/
abbrev ShiftPlan := List HunkShift

namespace ShiftPlan

def buildFrom? (direction : Direction) (earlierStop : Nat) :
    List Hunk → Except HunkFault ShiftPlan
  | [] => .ok []
  | h :: rest => do
    let shift ← HunkShift.ofHunk? direction earlierStop h
    let others ← buildFrom? direction shift.stop rest
    return shift :: others

def build? (direction : Direction) (hunks : List Hunk) : Except HunkFault ShiftPlan :=
  buildFrom? direction 0 hunks

/-- Where a line goes that no hunk holds: moved, when the result is a line number. -/
def moveBy? (offset : Int) (line : Nat) : Option Nat :=
  let moved := (line : Int) + offset
  if 0 < moved ∧ moved < Text.word32 then some moved.toNat else none

/-- Where a line goes, the hunks before having moved it by an offset. -/
def mapFrom? (offset : Int) (line : Nat) : ShiftPlan → Option Nat
  | [] => moveBy? offset line
  | h :: rest =>
    if line < h.start then moveBy? offset line
    else if line < h.stop then ((h.moved.find? fun m => m.1 == line).bind Prod.snd)
    else mapFrom? (offset + h.offset) line rest

def map? (plan : ShiftPlan) (line : Nat) : Option Nat := mapFrom? 0 line plan

end ShiftPlan

end CoverageLedger
