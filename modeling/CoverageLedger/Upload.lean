import CoverageLedger.Report
import CoverageLedger.Tracefile

/-!
# Uploads

An upload adds the files of a tracefile to a report under a session of its own. `TracedFile.source`
turns what a tracefile says about a file into lines: branch lines where branches have arms, method
lines where a function starts and nothing else is known, and plain lines otherwise.
-/

namespace CoverageLedger

namespace TracedFile

/-- The name in a report: the path without a leading `./`. -/
def reportPath (f : TracedFile) : String :=
  match Text.afterStart "./".toList f.path.toList with
  | some rest => String.ofList rest
  | none => f.path

/-- The arms of branches by line. -/
def armsByLine (f : TracedFile) : Table Nat (List ArmHits) :=
  .group (f.arms.map fun a => (a.line, a))

/-- A line that was reached so many times. -/
def plainLine (session hits : Nat) : Line := .ofSession { id := session, reading := .ofCount hits }

/-- The line of a branch: how many arms were taken, and which were not. Fewer than 2^32 arms are
meant, so that both parts of the ratio have 32 bits. -/
def branchLine (session : Nat) (arms : List ArmHits) : Line :=
  { Line.ofSession {
      id := session
      reading := .ratio (arms.countP fun a => 0 < a.hits) arms.length
      missing := some ((arms.filter fun a => a.hits = 0).map fun a => .index a.arm) } with
    kind := some .branch }

/-- The line where a function starts. -/
def methodLine (session hits : Nat) : Line := { plainLine session hits with kind := some .method }

def add (f : SourceFile) (n : Nat) (line : Line) : Result SourceFile := do
  return (← f.append n line).2

/-- The lines that a tracefile gives a file, as the readings of one session. -/
def source (f : TracedFile) (session : Nat) : Result SourceFile := do
  -- arms say more than hits, and hits more than a function's start
  let arms := f.armsByLine
  let start : SourceFile := { name := f.reportPath }
  let withLines ← (f.lines.filter fun l => !arms.contains l.line).foldlM
    (fun file l => add file l.line (plainLine session l.hits)) start
  let withBranches ← (arms.entries.filter fun e => e.1 ≠ 0).foldlM
    (fun file (n, arms) => add file n (branchLine session arms)) withLines
  f.functions.foldlM (fun file function =>
    match function.first with
    | none | some 0 => return file
    | some first =>
      if (file.line? first).isSome then return file
      else add file first (methodLine session function.hits)) withBranches

end TracedFile

/-- What an upload says about its session. -/
structure Upload where
  flags : List String := []
  name : Option String := none
  /-- When it was uploaded, in seconds since the start of 1970. -/
  time : Option Int := none
  /-- What the clock says, which is taken when no time is given. -/
  now : Int := 0

/-- What an upload added to a report. -/
structure UploadSummary where
  session : Nat
  files : Nat
  totals : Totals

namespace Report

/-- Add files under a session, and give the names of those that were not empty. -/
def addTraced (session : Nat) (r : Report) : List TracedFile → Result (List String × Report)
  | [] => .ok ([], r)
  | f :: rest => do
    let file ← f.source session
    let (added, r) := r.append file
    let (names, r) ← addTraced session r rest
    return (if added then file.name :: names else names, r)

/-- The totals of a session in some files. -/
def sessionTotalsIn (r : Report) (session : Nat) (names : List String) : Totals :=
  let inFile (name : String) : Option Totals :=
    (r.entry? name).bind fun e => e.sessionTotals.get? session
  { Totals.sum (names.filterMap inFile) with sessions := 1 }

/-- The session of an upload, before it is known what it covers. -/
def sessionOf (upload : Upload) : Session :=
  { flags := upload.flags, name := upload.name, time := some (upload.time.getD upload.now) }

/-- Add the files of a tracefile under a new session. The totals of the session cover what this
upload added. -/
def addUpload (r : Report) (files : List TracedFile) (upload : Upload) :
    Result (UploadSummary × Report) := do
  let (session, r) := r.addSession (sessionOf upload)
  let (names, r) ← addTraced session r files
  let totals := r.sessionTotalsIn session names
  let r := { r.changed with
    sessions := r.sessions.modify session fun s => { s with totals := some totals } }
  return ({ session, files := names.length, totals }, r)

end Report

end CoverageLedger
