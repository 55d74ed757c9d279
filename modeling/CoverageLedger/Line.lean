import CoverageLedger.Reading

/-!
# Lines

A `Line` is the merged state of one source line: its reading, what each session read there, and what
else is known about it. The records here are plain data; `Line/Record` writes and reads them, and
`Line/Merge` joins them.
-/

namespace CoverageLedger

/-- An arm of a branch: its index, or the name that an instrumenter gives it. -/
inductive BranchArm where
  | index (i : Int)
  | name (s : String)
  deriving DecidableEq, Repr

/-- Indexes come before names. -/
def BranchArm.order : BranchArm → BranchArm → Ordering
  | .index a, .index b => compare a b
  | .index _, .name _ => .lt
  | .name _, .index _ => .gt
  | .name a, .name b => compare a b

/-- Cyclomatic complexity: a plain total, or how much of a total is covered. -/
inductive Complexity where
  | total (n : Int)
  | pair (covered total : Int)
  deriving DecidableEq, Repr

/-- The special kinds of line. -/
inductive LineKind where
  | branch
  | method
  deriving DecidableEq, Repr

/-- What one session read on one line. -/
structure LineSession where
  id : Nat
  reading : Reading
  /-- The branch arms that were not taken. -/
  missing : Option (List BranchArm) := none
  partials : Option (List ColumnRange) := none
  complexity : Option Complexity := none
  deriving DecidableEq, Repr

/-- What one session read on one line under certain labels. -/
structure Datapoint where
  session : Nat
  reading : Reading
  kind : Option String := none
  labels : List Nat
  deriving DecidableEq, Repr

/-- The merged state of one source line. -/
structure Line where
  reading : Reading := .absent
  kind : Option LineKind := none
  sessions : List LineSession := []
  messages : Option Json := none
  complexity : Option Complexity := none
  datapoints : Option (List Datapoint) := none
  deriving Repr, Inhabited

namespace Line

def ofSession (s : LineSession) : Line :=
  { reading := s.reading, complexity := s.complexity, sessions := [s] }

def messageCount (l : Line) : Nat :=
  match l.messages with
  | some (.array items) => items.length
  | some (.object fields) => fields.length
  | _ => 0

/-- The ids of the sessions that read a line, in the order of the line. -/
def sessionIds (l : Line) : List Nat := l.sessions.map (·.id)

end Line

end CoverageLedger
