import CoverageLedger.Program
import CoverageLedger.Store.FileForm
import Std.Time.DateTime.Timestamp

/-!
# The executable

Collects what one run of the program needs from its surroundings, runs it, and writes the database
back. Everything that is decided is decided by `Program`.
-/

namespace CoverageLedger.Main

def readBytes? (path : String) : IO (Option ByteArray) := do
  try
    return some (← IO.FS.readBinFile path)
  catch _ => return none

/-- The files among some paths. -/
def readFiles (paths : List String) : IO (Table String ByteArray) := do
  let found ← paths.filterMapM fun path => do
    return (← readBytes? path).map fun bytes => (Program.plainPath path, bytes)
  return .ofList found

/-- The files that an invocation may read. -/
def neededFiles (i : Invocation) : List String :=
  let settings := match i.settings with
    | some path => [path, path ++ ".toml"]
    | none => [Settings.defaultFile]
  match i.command with
  | .ingest file .. => file :: settings
  | _ => settings

def variableNames : List String := [
  "COVSTORE_ANALYZER_SAMPLE_RATE", "COVSTORE_USE_SESSION_TOTALS", "COVSTORE_SESSION_TOTALS_CUTOVER"]

def readEnvironment : IO (List (String × String)) :=
  variableNames.filterMapM fun name => do
    return (← IO.getEnv name).map fun value => (name, value)

/-- All of the input, when it is a diff. -/
partial def readInput (stream : IO.FS.Stream) (acc : ByteArray) : IO ByteArray := do
  let bytes ← stream.read 65536
  if bytes.isEmpty then return acc else readInput stream (acc ++ bytes)

def neededInput : Command → IO ByteArray
  | .diffCoverage _ none _ => do readInput (← IO.getStdin) .empty
  | _ => return .empty

def surroundings (i : Invocation) : IO World := do
  let path := Program.plainPath i.database
  let files ← readFiles (neededFiles i)
  let world : World := {
    files
    directories := [Program.directoryOf path]
    environment := ← readEnvironment
    input := ← neededInput i.command
    now := (← Std.Time.Timestamp.now).toSecondsSinceUnixEpoch.val }
  match ← readBytes? path with
  | none => return world
  | some bytes =>
    match Database.ofBytes? bytes.toList with
    | some d => return { world with databases := .ofList [(path, d)] }
    | none => return { world with files := world.files.insert path bytes }

def writeBack (i : Invocation) (w : World) : IO Unit := do
  let path := Program.plainPath i.database
  match w.databases.get? path with
  | some d => IO.FS.writeBinFile path (ByteArray.mk d.toBytes.toArray)
  | none => return

def finish (e : Ending) : IO UInt32 := do
  IO.print e.output
  return UInt32.ofNat e.code

def runInvocation (i : Invocation) : IO UInt32 := do
  let (ending, world) := Program.invoke (← surroundings i) i
  try
    writeBack i world
    finish ending
  catch e =>
    IO.eprintln e
    return UInt32.ofNat Program.failure

end CoverageLedger.Main

def main (arguments : List String) : IO UInt32 :=
  match CoverageLedger.CommandLine.read arguments with
  | .error stop => CoverageLedger.Main.finish (CoverageLedger.Program.stopped stop)
  | .ok i => CoverageLedger.Main.runInvocation i
