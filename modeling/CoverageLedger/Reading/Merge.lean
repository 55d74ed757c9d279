import CoverageLedger.Line

/-!
# Joining readings

`Reading.merge` joins two readings of one line. No reading at all leaves the other as it is, a
skipped one takes over, and of two numbers the greater stays. Branch ratios are decided by the arms
that no session took, when these are known.

`ColumnRange.combine` joins column ranges. A list of ranges says of each column that it ran, that it
did not run, or nothing (`ColumnRange.markAt`), and the result is the list of maximal runs of
columns with equal marks. Marks change only at the cuts, the columns where a range begins or has
just ended.
-/

namespace CoverageLedger

namespace ColumnRange

def start (r : ColumnRange) : Nat := r.first.getD 0

/-- Whether a range covers a column: from its start to its last column, or to its start when the
last column lies before it, and without end when it is open. -/
def covers (r : ColumnRange) (column : Nat) : Bool :=
  r.start ≤ column &&
    match r.last with
    | some last => column ≤ max last r.start
    | none => true

/-- What a list of ranges says about a column: nothing when no range covers it, and otherwise
whether any of those that do ran. -/
def markAt (l : List ColumnRange) (column : Nat) : Option Bool :=
  match l.filter (·.covers column) with
  | [] => none
  | covering => some (covering.any (·.hit))

/-- The columns at which a range begins or has just ended. -/
def edges (r : ColumnRange) : List Nat :=
  match r.last with
  | some last => [r.start, max last r.start + 1]
  | none => [r.start]

/-- The columns at which marks can change, ascending. -/
def cuts (l : List ColumnRange) : List Nat := ascend (l.flatMap edges)

/-- Put the columns from one cut up to the next before runs that start there or later; they go
into the first run when it touches them and has the same mark. -/
def extend (column next : Nat) (ran : Bool) : List ColumnRange → List ColumnRange
  | [] => [⟨some column, some (next - 1), ran⟩]
  | run :: rest =>
    if run.hit = ran ∧ run.first = some next then ⟨some column, run.last, ran⟩ :: rest
    else ⟨some column, some (next - 1), ran⟩ :: run :: rest

/-- The maximal runs of equal marks from the first of some ascending cuts on; marks do not change
after the last one. -/
def runs (mark : Nat → Option Bool) : List Nat → List ColumnRange
  | [] => []
  | [column] =>
    match mark column with
    | some ran => [⟨some column, none, ran⟩]
    | none => []
  | column :: next :: rest =>
    match mark column with
    | some ran => extend column next ran (runs mark (next :: rest))
    | none => runs mark (next :: rest)

/-- The maximal runs of the columns that a list of ranges describes. -/
def combine (l : List ColumnRange) : List ColumnRange := runs (markAt l) (cuts l)

end ColumnRange

namespace Reading

/-- Join two lists of column ranges. -/
def mergeRanges (a b : List ColumnRange) : Reading := .ranges (ColumnRange.combine (a ++ b))

/-- Join readings of which one is a ratio, when nothing is known of single branch arms. Of two
different ratios the greater parts are taken, each by itself. -/
def mergeWithRatio (a b : Reading) : Reading :=
  if a.same b then a
  else
    match a, b with
    | .skipped, _ | _, .skipped => .skipped
    | .hit _, _ | .fraction _, _ => a
    | _, .hit _ | _, .fraction _ => b
    | .miss, _ | .absent, _ | .flag _, _ => b
    | _, .miss | _, .absent | _, .flag _ => a
    | .ratio taken₁ total₁, .ratio taken₂ total₂ => .ratio (max taken₁ taken₂) (max total₁ total₂)
    | _, _ => a

/-- The number of branches that a ratio counts. -/
def branchTotal : Reading → Nat
  | .ratio _ total => total
  | _ => 0

/-- Join readings as ratios. The arms that no session took decide the ratio, when they are known. -/
def mergeAsRatios (a b : Reading) (missing : Option (List BranchArm)) : Reading :=
  let a := a.rangesAsRatio
  let b := b.rangesAsRatio
  match missing with
  | some arms =>
    let total := max a.branchTotal b.branchTotal
    .ratio (total - arms.length) total
  | none => mergeWithRatio a b

/-- Join two readings of one line. `missing` holds the branch arms of the line that no session took,
when any session reported arms. -/
def merge (a b : Reading) (missing : Option (List BranchArm)) : Reading :=
  match a, b with
  | .absent, other | other, .absent => other
  | .skipped, _ | _, .skipped => .skipped
  | a, b =>
    match a.number?, b.number? with
    | some x, some y => if y.le x then a else b
    | _, _ =>
      -- from here on at least one side is a ratio, ranges or a flag
      if a.isRatio || b.isRatio then mergeAsRatios a b missing
      else
        match a, b with
        | .ranges x, .ranges y => mergeRanges x y
        | .flag x, .flag y => .flag (x || y)
        | .flag x, other | other, .flag x => if other.truthy then other else .flag x
        -- a number and ranges
        | a, b => mergeAsRatios a b missing

/-- Join readings from the first to the last. One reading stays as it is. -/
def mergeAll (l : List Reading) (missing : Option (List BranchArm)) : Reading :=
  match l with
  | [] => .absent
  | first :: rest => rest.foldl (fun acc r => acc.merge r missing) first

end Reading

end CoverageLedger
