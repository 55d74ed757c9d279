import CoverageLedger.Report

/-!
# Taking sessions and labels out of a report

Sessions and labels can be removed after the fact, and sessions renumbered. Files that lose their
last line leave the report.
-/

namespace CoverageLedger.Report

/-- Take sessions out of one file. The second part says whether the file has become empty. -/
def deleteSessionsIn (ids : List Nat) (r : Report) (name : String) : Report × Bool :=
  if !r.files.contains name then (r, false)
  else
    let r := r.changed
    match r.file? name with
    | none => (r, false)
    | some f =>
      if f.hasAnySession ids then
        let f := f.afterSessionIds.deleteSessions ids
        let r := r.putFile name f
        if f.isEmpty then (r, true) else (r.refresh name, false)
      else (r.putFile name f.afterSessionIds, false)

/-- Take sessions out of some files, and give the names of those that have become empty. -/
def deleteSessionsFrom (ids : List Nat) (r : Report) : List String → Report × List String
  | [] => (r, [])
  | name :: rest =>
    let (r, emptied) := deleteSessionsIn ids r name
    let (r, others) := deleteSessionsFrom ids r rest
    (r, if emptied then name :: others else others)

/-- Take sessions out of every line, of the totals by session and of the session list. Files without
lines leave the report. -/
def deleteSessions (r : Report) (ids : List Nat) : Report :=
  if ids.isEmpty then r
  else
    let (r, emptied) := deleteSessionsFrom ids r r.names
    -- files go only after all of them were edited
    let r := emptied.foldl (fun r name => (r.remove name).2) r
    { r with
      files := r.files.map fun _ e =>
        { e with sessionTotals := ids.foldl SessionTotals.erase e.sessionTotals }
      sessions := ids.foldl Table.erase r.sessions
      knownTotals := none }

def deleteSession (r : Report) (id : Nat) : Report := r.deleteSessions [id]

/-- Take datapoints of some sessions under some labels out of one file, and the file out of the
report when it has no lines left. -/
def deleteLabelsIn (ids labels : List Nat) (r : Report) (name : String) : Report :=
  if !r.files.contains name then r
  else
    let r := r.changed
    match r.file? name with
    | none => r
    | some f =>
      if f.hasAnySession ids then
        let f := f.afterSessionIds.deleteLabels ids labels
        let r := r.putFile name f
        if f.isEmpty then (r.remove name).2 else r.refresh name
      else r.putFile name f.afterSessionIds

/-- Take the datapoints of some sessions under some labels out of every line. The session list stays
as it is. -/
def deleteLabels (r : Report) (ids labels : List Nat) : Report :=
  if ids.isEmpty || labels.isEmpty then r
  else (r.names.foldl (deleteLabelsIn ids labels) r).changed

/-- Put a session under another id in one file and in its totals by session. -/
def changeSessionIn (old new : Nat) (r : Report) (name : String) : Report :=
  let r := r.changed.afterReading name fun f => f.changeSessionId old new
  { r with files := r.files.modify name fun e =>
      { e with sessionTotals := e.sessionTotals.changeId old new } }

/-- Put a session under another id, which must be free. -/
def changeSession (r : Report) (old new : Nat) : Result Report :=
  match r.sessions.get? old with
  | none => .error (.sessionNotFound old)
  | some s =>
    if old = new then .ok r
    else if r.sessions.contains new then .error (.sessionInUse new)
    else
      let r := { r with sessions := (r.sessions.erase old).insert new s }
      .ok (r.names.foldl (changeSessionIn old new) r).changed

end CoverageLedger.Report
