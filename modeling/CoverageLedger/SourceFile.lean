import CoverageLedger.Diff.Shift
import CoverageLedger.Line.Merge
import CoverageLedger.Session

/-!
# Files of a report

A `SourceFile` holds the lines of one file by number. A file that comes from an archive keeps the
text of its chunk until its lines are needed, and is written back as it was as long as they are not.

`SourceFile.lines` is the view that does not depend on that: the lines by number, read from the text
when it is still unread. Everything else is said through it. Three things depend on the state:

* `encode` copies an unread chunk and writes any other anew;
* `sessionIds` takes the ids from the header of an unread chunk, which need not be those of its
  lines;
* ids that were taken from a header stay with the file until its lines change.

Totals that a file gave stay with it as long, but follow from its lines: they are no part of the
state here, and a `KeptFile`, which has them, gives the same answers.

A reading operation returns the file as it is afterwards: `opened` when it had to read the lines.
-/

namespace CoverageLedger

/-- Lines that a file refuses: some by their numbers, and all after a last one. -/
structure IgnoreRule where
  eof : Option Nat := none
  lines : List Nat := []
  deriving DecidableEq, Repr

namespace IgnoreRule

def covers (rule : IgnoreRule) (n : Nat) : Bool :=
  rule.lines.contains n ||
    match rule.eof with
    | some eof => eof < n
    | none => false

end IgnoreRule

/-- What is known of the lines of a file: the text of a chunk that was not read yet, or the
lines. -/
inductive Content where
  | text (chunk : String)
  | lines (table : Table Nat Line)

structure SourceFile where
  name : String
  content : Content := .lines ∅
  /-- The session ids that the header of the chunk declared, when they were asked for before the
  lines last changed. -/
  declared : Option (List Nat) := none
  ignore : Option IgnoreRule := none

/-! ## Chunk text -/

namespace Chunk

/-- Number rows from a number on, leaving out those without a line. -/
def numbered (n : Nat) : List (Option Line) → List (Nat × Line)
  | [] => []
  | some line :: rest => (n, line) :: numbered (n + 1) rest
  | none :: rest => numbered (n + 1) rest

theorem le_of_mem_numbered {n : Nat} {e : Nat × Line} {rows : List (Option Line)}
    (h : e ∈ numbered n rows) : n ≤ e.1 := by
  induction rows generalizing n with
  | nil => simp [numbered] at h
  | cons row rest ih =>
    cases row with
    | none => exact Nat.le_of_succ_le (ih h)
    | some line =>
      rcases List.mem_cons.1 h with rfl | h
      · exact Nat.le_refl n
      · exact Nat.le_of_succ_le (ih h)

theorem numbered_ascending (n : Nat) (rows : List (Option Line)) :
    (numbered n rows).Pairwise fun a b => Precedes a.1 b.1 := by
  induction rows generalizing n with
  | nil => exact .nil
  | cons row rest ih =>
    cases row with
    | none => exact ih (n + 1)
    | some line =>
      refine List.pairwise_cons.2 ⟨fun e he => ?_, ih (n + 1)⟩
      exact Nat.compare_eq_lt.2 (le_of_mem_numbered he)

/-- The line that a row writes: none for an empty row, for null, and for a row that is no line. -/
def lineOfRow (row : List Char) : Option Line :=
  let row := Text.trim row
  if row.isEmpty ∨ row = "null".toList then none else Line.ofText? row

/-- The lines of a chunk: after the header, a row for each line number. -/
def lines (chunk : String) : Table Nat Line :=
  let rows := ((Text.rows chunk.toList).drop 1).map lineOfRow
  ⟨numbered 1 rows, numbered_ascending 1 rows⟩

def headerField : String := "present_sessions"

/-- The session ids that a chunk header declares, when it is well formed and declares any. -/
def headerIds? (chunk : String) : Option (List Nat) := do
  let header := Text.trim (← (Text.rows chunk.toList).head?)
  if header.isEmpty ∨ header = "null".toList then none
  let fields ← (← Json.parseAs? (.ofNames [headerField]) header).record? [headerField]
  let ids ← Json.optional? (Json.list? Json.nat32?) (((fields[0]?).join).getD .null)
  ids.map ascend

/-- The rows from a line number on, so that each line of the table stands in the row of its
number. -/
def rowsFrom (n : Nat) : List (Nat × Line) → List String
  | [] => []
  | (k, line) :: rest => List.replicate (k - n) "" ++ line.text :: rowsFrom (k + 1) rest

/-- The text of a chunk: a header with session ids, and a row for each line number. -/
def encode (ids : List Nat) (table : Table Nat Line) : String :=
  let header := (Json.object [(headerField, .ofList .nat ids)]).render
  "\n".intercalate (header :: rowsFrom 1 table.entries)

end Chunk

namespace SourceFile

def lines (f : SourceFile) : Table Nat Line :=
  match f.content with
  | .text chunk => Chunk.lines chunk
  | .lines table => table

def isParsed (f : SourceFile) : Bool :=
  match f.content with
  | .text _ => false
  | .lines _ => true

/-- The file once its lines are read. -/
def opened (f : SourceFile) : SourceFile := { f with content := .lines f.lines }

/-- The ids of the sessions on some lines, ascending. -/
def idsOfLines (table : Table Nat Line) : List Nat := ascend (table.values.flatMap Line.sessionIds)

def line? (f : SourceFile) (n : Nat) : Option Line := f.lines.get? n

def size (f : SourceFile) : Nat := f.lines.size

def isEmpty (f : SourceFile) : Bool := f.lines.isEmpty

/-- One past the last line. -/
def eof (f : SourceFile) : Nat := ((f.lines.last?.map Prod.fst).getD 0) + 1

def totals (f : SourceFile) : Totals := .ofLines f.lines.values

/-- The ids of the sessions with a reading in the file: those that were taken from the header
before, or else those that the header of an unread chunk declares, or else those on the lines. -/
def sessionIds (f : SourceFile) : List Nat :=
  match f.declared with
  | some ids => ids
  | none =>
    match f.content with
    | .text chunk => (Chunk.headerIds? chunk).getD (idsOfLines f.lines)
    | .lines table => idsOfLines table

/-- The file once its session ids were asked for. -/
def afterSessionIds (f : SourceFile) : SourceFile :=
  match f.declared, f.content with
  | none, .text chunk =>
    match Chunk.headerIds? chunk with
    | some ids => { f with declared := some ids }
    | none => f.opened
  | _, _ => f

/-- The chunk of a file. -/
def encode (f : SourceFile) : String :=
  match f.content with
  | .text chunk => chunk
  | .lines table => Chunk.encode f.sessionIds table

def ignores (f : SourceFile) (n : Nat) : Bool :=
  match f.ignore with
  | some rule => rule.covers n
  | none => false

/-- Totals of each session's own readings: every reading counts as a line of its own. -/
def sessionTotals (f : SourceFile) : SessionTotals :=
  let readings := f.lines.values.flatMap fun l =>
    l.sessions.map fun s =>
      (s.id, ({ reading := s.reading, kind := l.kind, complexity := s.complexity } : Line))
  (Table.group readings).entries.foldl (fun t (id, lines) => t.insert id (.ofLines lines)) {}

/-! ## Reading with a check of the line number -/

/-- The line of a number, which must not be zero. -/
def get? (f : SourceFile) (n : Nat) : Result (Option Line) :=
  if n = 0 then .error (.lineNumber n) else .ok (f.line? n)

/-- The totals of the lines that some hunks add. -/
def addedTotals (f : SourceFile) (hunks : List Hunk) : Totals :=
  .ofLines ((hunks.flatMap Hunk.addedLines).filterMap f.line?)

/-- The file once lines of some numbers were looked up. -/
def afterLines (f : SourceFile) (numbers : List Nat) : SourceFile :=
  if numbers.isEmpty then f else f.opened

/-! ## Editing -/

/-- Change the lines. Ids taken from the header no longer hold. -/
def edit (f : SourceFile) (change : Table Nat Line → Table Nat Line) : SourceFile :=
  -- what the header declared was said of the old lines
  { f with content := .lines (change f.lines), declared := none }

/-- Join a line with what is stored under a number. -/
def appendLine (f : SourceFile) (n : Nat) (line : Line) (joined : Bool) : SourceFile :=
  f.edit fun table =>
    table.insert n <|
      match table.get? n with
      | some own => own.merge line joined
      | none => line

/-- Join a line with what is stored under a number, unless the number is refused. -/
def append (f : SourceFile) (n : Nat) (line : Line) (joined : Bool := true) :
    Result (Bool × SourceFile) :=
  if n = 0 then .error (.lineNumber n)
  else if f.ignores n then .ok (false, f)
  else .ok (true, f.appendLine n line joined)

/-- Store a line under a number, unless the number is refused. -/
def set (f : SourceFile) (n : Nat) (line : Line) : Result SourceFile :=
  if n = 0 then .error (.lineNumber n)
  else if f.ignores n then .ok f
  else .ok (f.edit fun table => table.insert n line)

def remove (f : SourceFile) (n : Nat) : Result (Option Line × SourceFile) :=
  if n = 0 then .error (.lineNumber n)
  else
    match f.line? n with
    | none => .ok (none, f.opened)
    | some line => .ok (some line, f.edit fun table => table.erase n)

/-- Join every line of another file into this one, except those that are refused. -/
def mergeLines (f : SourceFile) (other : Table Nat Line) (joined : Bool) : SourceFile :=
  other.entries.foldl
    (fun f (n, line) => if f.ignores n then f else f.appendLine n line joined) f

/-- Join another file into this one; an empty file changes nothing. -/
def merge (f : SourceFile) (other : SourceFile) (joined : Bool := true) : Bool × SourceFile :=
  if other.isEmpty then (false, f) else (true, f.mergeLines other.lines joined)

/-- Refuse lines from now on, and drop those that are stored. -/
def ignoreLines (f : SourceFile) (numbers : List Nat) (eof : Option Nat) : SourceFile :=
  let rule : IgnoreRule := { eof, lines := ascend numbers }
  { f.edit (fun table => table.filter fun n _ => !rule.covers n) with ignore := some rule }

/-- Move lines to the numbers that a plan gives them; of two on one number the later one stays. -/
def shiftLines (plan : ShiftPlan) (table : Table Nat Line) : Table Nat Line :=
  .ofList (table.entries.filterMap fun (n, line) => (plan.map? n).map fun m => (m, line))

/-- Follow the line numbers through the hunks of a diff. Hunks that do not fit together change
nothing. -/
def shift (f : SourceFile) (hunks : List Hunk) (direction : Direction) : Bool × SourceFile :=
  match ShiftPlan.build? direction hunks with
  | .ok plan => (true, f.edit (shiftLines plan))
  | .error _ => (false, f)

end SourceFile

/-! ## Taking sessions and labels out of lines -/

namespace Line

/-- A line without some sessions. A line that loses all its sessions goes; one that never had any
stays with its reading. -/
def withoutSessions (ids : List Nat) (l : Line) : Option Line :=
  let kept (ds : List Datapoint) : List Datapoint := ds.filter fun d => !ids.contains d.session
  -- the datapoints go even from a line that has no sessions to lose
  let l := { l with datapoints := l.datapoints.map kept }
  if l.sessions.isEmpty then some l
  else
    let left := l.sessions.filter fun s => !ids.contains s.id
    if left.isEmpty then none
    else
      some { l with
        sessions := left
        reading := LineSession.readingOf left
        complexity := LineSession.complexityOf left }

/-- A line without the datapoints of some sessions under some labels. A session goes with the last
of its datapoints. The reading follows from the datapoints that stay and from the sessions that
never had any. -/
def withoutLabels (ids labels : List Nat) (l : Line) : Option Line :=
  match l.datapoints with
  | none => some l
  | some datapoints =>
    let before := datapoints.map (·.session)
    let kept := datapoints.filter fun d =>
      !ids.contains d.session || d.labels.all fun label => !labels.contains label
    let after := kept.map (·.session)
    let sessions := l.sessions.filter fun s => !before.contains s.id || after.contains s.id
    if kept.isEmpty && sessions.isEmpty then none
    else
      -- sessions whose readings no datapoint stands for
      let unlabelled := sessions.filter fun s => !before.contains s.id
      some { l with
        sessions
        reading := Reading.mergeAll (kept.map (·.reading) ++ unlabelled.map (·.reading)) none
        datapoints := some kept }

/-- A line with one session under another id. -/
def withSessionId (old new : Nat) (l : Line) : Line :=
  let renamed (ds : List Datapoint) : List Datapoint :=
    ds.map fun d => if d.session = old then { d with session := new } else d
  { l with
    sessions := l.sessions.map fun s => if s.id = old then { s with id := new } else s
    datapoints := l.datapoints.map renamed }

end Line

namespace SourceFile

/-- Whether any of some sessions has a reading in the file. -/
def hasAnySession (f : SourceFile) (ids : List Nat) : Bool := f.sessionIds.any ids.contains

/-- Take sessions out of all lines. -/
def deleteSessions (f : SourceFile) (ids : List Nat) : SourceFile :=
  f.edit fun table => table.filterMap fun _ l => l.withoutSessions ids

/-- Take the datapoints of some sessions under some labels out of all lines. -/
def deleteLabels (f : SourceFile) (ids labels : List Nat) : SourceFile :=
  f.edit fun table => table.filterMap fun _ l => l.withoutLabels ids labels

/-- Put one session under another id, when it has a reading in the file. -/
def changeSessionId (f : SourceFile) (old new : Nat) : SourceFile :=
  if f.sessionIds.contains old then f.edit fun table => table.map fun _ l => l.withSessionId old new
  else f.afterSessionIds

end SourceFile

end CoverageLedger
