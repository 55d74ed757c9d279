import CoverageLedger.CommandLine
import CoverageLedger.Commands
import CoverageLedger.Pattern.Language
import CoverageLedger.Settings

/-!
# The program

`Program.run` is one run of the program in a `World`: what it can read, and the databases that it
can change. A run ends with an exit code and shows a text; a run that fails shows nothing, so that
only its code tells what happened.
-/

namespace CoverageLedger

/-- What surrounds the program. Files and databases are known by their paths. -/
structure World where
  files : Table String ByteArray := ∅
  databases : Table String Database := ∅
  /-- Directories that are there though they may be empty. -/
  directories : List String := []
  environment : List (String × String) := []
  input : ByteArray := .empty
  /-- The time in seconds since the start of 1970. -/
  now : Int := 0

structure Ending where
  code : Nat
  output : String := ""
  deriving DecidableEq, Repr

namespace Program

def success : Nat := 0

def failure : Nat := 1

def misuse : Nat := 2

/-! ## Paths -/

/-- A path without the marks of the present directory at its start. -/
def plainPathChars : Nat → List Char → List Char
  | 0, cs => cs
  | fuel + 1, cs =>
    match Text.afterStart "./".toList cs with
    | some rest => plainPathChars fuel (rest.dropWhile (· == '/'))
    | none => cs

def plainPath (path : String) : String :=
  String.ofList (plainPathChars path.length path.toList)

/-- The directory that a path is in; the present one has an empty name. -/
def directoryOf (path : String) : String :=
  String.ofList ((Text.dropLastWhile (· != '/') path.toList).dropLast)

/-- Whether there is a directory: the present one, or one that holds a file or a database. -/
def hasDirectory (w : World) (directory : String) : Bool :=
  directory.isEmpty || w.directories.contains directory ||
    (w.files.keys ++ w.databases.keys).any fun path =>
      ((directory ++ "/").toList.isPrefixOf path.toList)

def isDirectory (w : World) (path : String) : Bool :=
  path == "." || path == ".." || path.endsWith "/" || hasDirectory w path

def file? (w : World) (path : String) : Option ByteArray := w.files.get? (plainPath path)

/-! ## Databases -/

/-- The path of a database that is kept nowhere. -/
def unkept : String := ":memory:"

/-- The database at a path, which is made when there is none. A file that is no database is none
either. -/
def openDatabase? (w : World) (path : String) : Result Database :=
  if path = unkept then Database.open? {}
  else
    match w.databases.get? path, w.files.get? path with
    | some d, _ => d.open?
    -- an empty file is a database that nothing was written to yet
    | none, some bytes => if bytes.isEmpty then Database.open? {} else .error .database
    | none, none =>
      if hasDirectory w (directoryOf path) && !isDirectory w path then Database.open? {}
      else .error .database

def keep (w : World) (path : String) (d : Database) : World :=
  if path = unkept then w else { w with databases := w.databases.insert path d }

/-! ## Running -/

/-- The text of a diff from the input. Diffs from elsewhere cannot be had. -/
def diffText? (w : World) : Option String → Commands.Attempt String
  | some _ => .error .noDiff
  | none =>
    match Text.decodeUtf8 w.input with
    | .ok text => .ok text
    | .error _ => .error .noDiff

/-- Carry out a command on a store. -/
def perform (w : World) (options : ViewOptions) (s : Store) :
    Command → Commands.Attempt (String × Store)
  | .ingest file report flags name =>
    Commands.ingest s (file? w file) file report { flags, name, now := w.now }
  | .summary report paths flags => shown (Commands.summary s report paths flags options)
  | .files report => shown (Commands.files s report)
  | .lines file report uncovered => shown (Commands.lines s report file uncovered)
  | .sessions report => shown (Commands.sessions s report)
  | .deleteSessions report ids => Commands.deleteSessions s report ids
  | .carryForward report into flags paths => Commands.carryForward s report into flags paths
  | .diffCoverage report gitDiff directory => do
    let text ← diffText? w gitDiff
    shown (Commands.diffCoverage s report text directory)
  | .repack report => Commands.repack s report
where
  shown (text : Commands.Attempt String) : Commands.Attempt (String × Store) := do
    return (← text, s)

/-- Run an invocation. The settings are read first, then the database is opened. -/
def invoke (w : World) (i : Invocation) : Ending × World :=
  let path := plainPath i.database
  match Settings.load (file? w) i.settings w.environment, openDatabase? w path with
  | .error _, _ => ({ code := failure }, w)
  | _, .error _ => ({ code := failure }, w)
  | .ok settings, .ok d =>
    match perform w settings.viewOptions d.blobs i.command with
    | .ok (output, blobs) => ({ code := success, output }, keep w path { d with blobs })
    | .error _ => ({ code := failure }, keep w path d)

def stopped : CommandLine.Stop → Ending
  | .misuse => { code := misuse }
  | .help topic => { code := success, output := topic.text }
  | .version =>
    { code := success,
      output := CommandLine.programName ++ " " ++ CommandLine.programVersion ++ "\n" }

def run (w : World) (arguments : List String) : Ending × World :=
  match CommandLine.read arguments with
  | .error stop => (stopped stop, w)
  | .ok i => invoke w i

end Program

end CoverageLedger
