import CoverageLedger.Carry
import CoverageLedger.Diff.Unified
import CoverageLedger.LineRanges
import CoverageLedger.Store
import CoverageLedger.Upload
import CoverageLedger.View

/-!
# Commands

What the commands of the program do to a store, and the text that they show. A command that fails
leaves the store as it was.
-/

namespace CoverageLedger

inductive CommandError where
  | plain (e : Error)
  | loading (report : String) (e : Error)
  | ingesting (file : String) (e : Error)
  | inconsistent (report : String)
  /-- There is no way to get a diff. -/
  | noDiff

namespace CommandError

def cause? : CommandError → Option Error
  | .plain e | .loading _ e | .ingesting _ e => some e
  | .inconsistent _ | .noDiff => none

/-- What is said about the failure; nothing when the error inside speaks for itself. -/
def context? : CommandError → Option String
  | .plain _ => none
  | .loading report _ => some ("Failed to load report '" ++ report ++ "'")
  | .ingesting file _ => some ("Failed to ingest " ++ file)
  | .inconsistent report =>
    some ("Report '" ++ report ++ "' failed its integrity check; not repacking")
  | .noDiff => some "Failed to read diff"

end CommandError

namespace Commands

abbrev Attempt (α : Type) := Except CommandError α

/-- A result without anything to say about its failure. -/
def plainly {α : Type} : Result α → Attempt α
  | .ok a => .ok a
  | .error e => .error (.plain e)

def load (s : Store) (report : String) : Attempt Report :=
  match s.load report with
  | .ok r => .ok r
  | .error e => .error (.loading report e)

/-- A share in percent with one place; a text that is no number is shown as it is. -/
def percentText : Option String → String
  | some c =>
    match Decimal.read? c.toList with
    | some x => String.ofList (Decimal.fixed 1 x) ++ "%"
    | none => c ++ "%"
  | none => "n/a"

def rowsText (l : List String) : String := String.join (l.map (· ++ "\n"))

def dashes (n : Nat) : String := String.ofList (List.replicate n '-')

/-! ## Adding -/

/-- Add a tracefile to a report that is made when it is missing. -/
def upload (s : Store) (bytes : Option ByteArray) (report : String) (u : Upload) :
    Result (UploadSummary × Store) := do
  let some bytes := bytes | throw .io
  let files ← TracedFile.ofBytes? bytes
  -- only a missing report is made; a broken one stays an error
  let r ← match s.load report with
    | .error (.reportNotFound _) => pure {}
    | r => r
  let (summary, r) ← r.addUpload files u
  return (summary, s.save report r)

def ingest (s : Store) (bytes : Option ByteArray) (file report : String) (u : Upload) :
    Attempt (String × Store) :=
  match upload s bytes report u with
  | .error e => .error (.ingesting file e)
  | .ok (summary, s) =>
    .ok ("Ingested " ++ file ++ " into '" ++ report ++ "' as session " ++
      toString summary.session ++ " (" ++ toString summary.files ++ " files, " ++
      toString summary.totals.lines ++ " lines, " ++
      percentText summary.totals.coverage ++ ")\n", s)

/-! ## Showing -/

/-- A row of a summary that is left out when it would be empty. -/
def optionalRow (shown : Bool) (row : String) : List String := if shown then [row] else []

def summary [PatternLanguage] (s : Store) (report : String) (paths flags : List String)
    (options : ViewOptions) : Attempt String := do
  let r ← load s report
  let whole : View := { report := r, options }
  let t := (← plainly (whole.narrow paths flags)).totals
  return rowsText <|
    ["Report:     " ++ report] ++
    optionalRow (!paths.isEmpty) ("Paths:      " ++ Text.joinWith ", " paths) ++
    optionalRow (!flags.isEmpty) ("Flags:      " ++ Text.joinWith ", " flags) ++
    ["Files:      " ++ toString t.files,
      "Sessions:   " ++ toString t.sessions,
      "Lines:      " ++ toString t.hits ++ "/" ++ toString t.lines ++
        " (" ++ percentText t.coverage ++ ")",
      "            " ++ toString t.misses ++ " missed, " ++ toString t.partials ++ " partial"] ++
    optionalRow (0 < t.branches) ("Branches:   " ++ toString t.branches) ++
    optionalRow (0 < t.methods) ("Methods:    " ++ toString t.methods)

def fileRow (name lines hits misses rate : String) : String :=
  Text.joinWith " " (Text.padEnd 60 name :: [lines, hits, misses, rate].map (Text.padStart 8))

def files (s : Store) (report : String) : Attempt String := do
  let r ← load s report
  let row (name : String) : Option String :=
    (r.fileTotals? name).map fun t =>
      fileRow name (toString t.lines) (toString t.hits) (toString t.misses) (percentText t.coverage)
  return rowsText <|
    fileRow "FILE" "LINES" "HITS" "MISSES" "RATE" :: dashes 96 :: r.names.filterMap row

/-- The numbers of lines with some property of their reading. -/
def linesWhere (f : SourceFile) (p : Option Outcome → Bool) : List Nat :=
  (f.lines.filter fun _ l => p l.reading.outcome).keys

def uncoveredLines (f : SourceFile) (name : String) : String :=
  let countable := linesWhere f Option.isSome
  let missed := linesWhere f (· == some .miss)
  if missed.isEmpty then "All instrumentable lines are covered in '" ++ name ++ "'\n"
  else
    rowsText [
      "Uncovered lines in '" ++ name ++ "':",
      "  " ++ lineRangesText missed countable,
      "  (" ++ toString missed.length ++ " lines)"]

def outcomeSign : Option Outcome → String
  | some .hit => "✓"
  | some .miss => "✗"
  | some .partly => "~"
  | some .skipped | none => "-"

def lineRow (number reading sessions : String) : String :=
  Text.padStart 6 number ++ "  " ++ Text.padStart 10 reading ++ "  " ++ Text.padStart 8 sessions

def allLines (f : SourceFile) (name : String) : String :=
  let row (e : Nat × Line) : String :=
    lineRow (toString e.1) e.2.reading.text (toString e.2.sessions.length) ++ "  " ++
      outcomeSign e.2.reading.outcome
  if f.isEmpty then "No coverage data for '" ++ name ++ "'\n"
  else rowsText (lineRow "LINE" "COVERAGE" "SESSIONS" :: dashes 30 :: f.lines.entries.map row)

def lines (s : Store) (report file : String) (uncovered : Bool) : Attempt String := do
  let r ← load s report
  let f ← plainly (r.file file)
  return if uncovered then uncoveredLines f file else allLines f file

def sessionRow (id flags name kind rate : String) : String :=
  Text.padStart 4 id ++ "  " ++ Text.padEnd 24 flags ++ " " ++ Text.padEnd 24 name ++ " " ++
    Text.padEnd 15 kind ++ " " ++ Text.padStart 8 rate

def sessions (s : Store) (report : String) : Attempt String := do
  let r ← load s report
  let row (e : Nat × Session) : String :=
    sessionRow (toString e.1) (Text.joinWith "," e.2.flags) (e.2.name.getD "-") e.2.kind.name
      (percentText (e.2.totals.bind (·.coverage)))
  return if r.sessions.isEmpty then "No sessions in '" ++ report ++ "'.\n"
    else rowsText (sessionRow "ID" "FLAGS" "NAME" "TYPE" "RATE" :: dashes 80 ::
      r.sessions.entries.map row)

/-- The files of a diff that have tracked lines. -/
def patchRows (result : DiffTotals) : List String :=
  (result.files.filter fun _ t => 0 < t.lines).entries.map fun (path, t) =>
    "    " ++ path ++ ": " ++ toString t.hits ++ "/" ++ toString t.lines

def diffCoverage (s : Store) (report text : String) (directory : Option String) :
    Attempt String := do
  let r ← load s report
  let parsed := Diff.parse text
  let d := match directory with
    | some directory => parsed.withDirectory directory
    | none => parsed
  -- deleted files alone, or no files at all
  if d.files.values.all (!·.contributes) then return "No added lines found in diff.\n"
  let result := r.diffTotals d
  let t := result.totals
  return rowsText <|
    ["Patch coverage for report '" ++ report ++ "':",
      "  Diff touches " ++ toString d.files.size ++ " files, " ++ toString result.files.size ++
        " with coverage data"] ++
    patchRows result ++
    if 0 < t.lines then
      ["  Of the added lines, " ++ toString t.lines ++ " are tracked, " ++ toString t.hits ++
          " are covered",
        "  Patch coverage: " ++ percentText t.coverage]
    else ["  No tracked lines in diff (nothing to cover)"]

/-! ## Editing -/

def deleteSessions (s : Store) (report : String) (ids : List Nat) : Attempt (String × Store) := do
  let r ← load s report
  match ids.find? fun id => !r.sessions.contains id with
  | some id => throw (.plain (.sessionNotFound id))
  | none =>
    let r := r.deleteSessions ids
    return ("Deleted " ++ toString ids.length ++ " session(s) from '" ++ report ++ "' (" ++
      toString r.files.size ++ " files remain)\n", s.save report r)

def carryForward [PatternLanguage] (s : Store) (report into : String) (flags paths : List String) :
    Attempt (String × Store) := do
  let r ← plainly (Carry.report (← load s report) flags paths none)
  return ("Carried forward " ++ toString r.sessions.size ++ " session(s) and " ++
    toString r.files.size ++ " files from '" ++ report ++ "' into '" ++ into ++ "'\n",
    s.save into r)

def repack (s : Store) (report : String) : Attempt (String × Store) := do
  let r ← load s report
  match r.repack with
  | (true, packed) =>
    return ("Repacked '" ++ report ++ "': " ++ toString r.slots.length ++ " chunks -> " ++
      toString packed.slots.length ++ "\n", s.save report packed)
  | (false, _) => throw (.inconsistent report)

end Commands

end CoverageLedger
