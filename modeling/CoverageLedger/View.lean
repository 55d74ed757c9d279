import CoverageLedger.PathFilter
import CoverageLedger.Report

/-!
# Views

A `View` shows the part of a report that path filters and flags choose. A session passes when it has
a flag of every flag set; a line is shown as its passing sessions alone would have made it, and not
at all when it has none. Without flags every line is shown as it is.

Nothing in a view changes a report but for the files it had to read, which are open afterwards:
`View.opened` says which.
-/

namespace CoverageLedger

/-- When a view may take its totals from a session. -/
structure ViewOptions where
  useSessionTotals : Bool := false
  /-- Sessions from before this moment never lend their totals. -/
  cutover : Option Instant := none

structure View where
  report : Report
  options : ViewOptions := {}
  paths : List PathFilter := []
  flags : List (List String) := []

namespace View

/-- Narrow a view. Empty lists choose everything. -/
def narrow [PatternLanguage] (v : View) (paths flags : List String) : Result View := do
  let filters ← if paths.isEmpty then pure [] else do pure [← PathFilter.ofPatterns? paths]
  return { v with
    paths := v.paths ++ filters
    flags := v.flags ++ if flags.isEmpty then [] else [ascend flags] }

def hasPathFilter (v : View) : Bool := v.paths.any (!·.isEmpty)

def hasFlagFilter (v : View) : Bool := !v.flags.isEmpty

def includes (v : View) (path : String) : Bool := v.paths.all (·.chooses path)

/-! ## Sessions -/

/-- Whether a session has a flag of every flag set. -/
def passes (v : View) (s : Session) : Bool := v.flags.all fun wanted => s.flags.any wanted.contains

/-- The sessions that pass. -/
def sessions (v : View) : Table Nat Session := v.report.sessions.filter fun _ s => v.passes s

/-- The ids of the sessions that pass, if sessions are filtered. -/
def sessionIds? (v : View) : Option (List Nat) :=
  if v.hasFlagFilter then some v.sessions.keys else none

/-! ## Lines -/

/-- A line as some of its sessions alone would have made it; none when it has none of them. -/
def restrict (ids : List Nat) (l : Line) : Option Line :=
  let kept := l.sessions.filter fun s => ids.contains s.id
  if kept.isEmpty then none
  -- a line that keeps all its sessions is shown as stored, with all its datapoints
  else if kept.length = l.sessions.length then some l
  else
    let ofKept (ds : List Datapoint) : List Datapoint := ds.filter fun d => ids.contains d.session
    some { l with
      reading := LineSession.readingOf kept
      complexity := LineSession.complexityOf kept
      datapoints := l.datapoints.map ofKept
      sessions := kept }

/-- A line as the view shows it. -/
def shown (v : View) (l : Line) : Option Line :=
  match v.sessionIds? with
  | some ids => restrict ids l
  | none => some l

/-- The lines of a file as the view shows them. -/
def linesOf (v : View) (f : SourceFile) : Table Nat Line := f.lines.filterMap fun _ l => v.shown l

/-- The totals of a file as the view shows it. -/
def totalsOf (v : View) (f : SourceFile) : Totals := .ofLines (v.linesOf f).values

/-! ## Files -/

/-- The file of a path, unless its path does not pass. -/
def file? (v : View) (path : String) : Option SourceFile :=
  if v.includes path then v.report.file? path else none

/-- Whether the view shows a line of a file. -/
def contains (v : View) (path : String) : Bool := (v.file? path).any fun f => !(v.linesOf f).isEmpty

/-- The names of the files in the view. Where sessions are filtered, files without a shown line are
left out. -/
def names (v : View) : List String :=
  v.report.names.filter fun name => v.includes name && (!v.hasFlagFilter || v.contains name)

/-- The line of a number, which must not be zero. -/
def get? (v : View) (f : SourceFile) (n : Nat) : Result (Option Line) := do
  return (← f.get? n).bind v.shown

/-! ## Totals -/

/-- The totals of the only session that passes, where they may stand for those of the view: there is
one flag, no path filter, and the session is not from before the cutover. -/
def sessionTotals? (v : View) : Option Totals :=
  match v.flags, v.sessions.values with
  | [[_]], [s] =>
    if v.options.useSessionTotals && !v.hasPathFilter then
      match v.options.cutover with
      | none => s.totals
      | some cutover => s.timestamp?.bind fun time => if time.before cutover then none else s.totals
    else none
  | _, _ => none

/-- The totals of a file for the totals of the view: of its shown lines where sessions are filtered,
and otherwise those that the report has. -/
def fileTotals? (v : View) (name : String) : Option Totals :=
  if v.hasFlagFilter then (v.file? name).map v.totalsOf else v.report.fileTotals? name

/-- The totals computed from the files and sessions in the view. -/
def computedTotals (v : View) : Totals :=
  { Totals.sum (v.names.filterMap v.fileTotals?) with sessions := v.sessions.size }

def totals (v : View) : Totals := v.sessionTotals?.getD v.computedTotals

/-! ## Diffs -/

def diffTotals (v : View) (d : Diff) : DiffTotals :=
  Report.diffTotalsOf d fun path =>
    (v.file? path).map fun f n => (f.line? n).bind v.shown

/-- Compute the totals of a diff and store them in the diff. A diff without files is left alone. -/
def applyDiff (v : View) (d : Diff) : Option Totals × Diff :=
  if d.files.isEmpty then (none, d)
  else
    let result := v.diffTotals d
    (some result.totals, d.withFileTotals result)

/-! ## Files that were read -/

/-- The view once the files of some paths were read. -/
def opened (v : View) (paths : List String) : View :=
  let open' (r : Report) (path : String) : Report :=
    if v.includes path then r.afterReading path SourceFile.opened else r
  { v with report := paths.foldl open' v.report }

/-- The view once its files were listed: filtering sessions reads every file that passes. -/
def afterNames (v : View) : View := if v.hasFlagFilter then v.opened v.report.names else v

/-- The view once its totals were computed. -/
def afterTotals (v : View) : View := if v.sessionTotals?.isSome then v else v.afterNames

/-- The view once the lines that a diff adds were looked up. -/
def afterDiff (v : View) (d : Diff) : View :=
  v.opened <| d.files.entries.filterMap fun (path, f) =>
    if f.contributes && !f.addedLines.isEmpty then some path else none

end View

end CoverageLedger
