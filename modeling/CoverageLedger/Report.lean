import CoverageLedger.SourceFile

/-!
# Reports

A `Report` has a manifest, which says for every file name in which slot its lines are and what its
totals were, the slots themselves, and the sessions that contributed. Slots of files that were taken
out stay empty until the report is repacked, so that the numbers of the others keep their meaning.

Totals of files come from the manifest as long as the lines of a file are unread. `Report.totals`
are computed once and kept until the report changes.
-/

namespace CoverageLedger

/-- What the manifest says about one file. -/
structure FileEntry where
  slot : Nat
  totals : Totals := {}
  sessionTotals : SessionTotals := {}
  diffTotals : Option Totals := none
  deriving Inhabited

namespace FileEntry

/-- The entry of a file that is put into a slot. -/
def ofFile (slot : Nat) (f : SourceFile) : FileEntry :=
  { slot, totals := f.totals, sessionTotals := f.sessionTotals }

def toJson (e : FileEntry) : Json :=
  .array [
    .nat e.slot, e.totals.toJson, e.sessionTotals.toJson, .ofOption Totals.toJson e.diffTotals]

/-- Totals, for which null stands when there are none. -/
def totalsOfJson? : Json → Except RecordFault Totals
  | .null => .ok {}
  | j => Totals.ofJson? j

/-- Totals of a diff, which anything but an array or object leaves out. -/
def diffTotalsOfJson? : Json → Option Totals := Totals.ofArrayOrObject?

def ofJson? : Json → Except RecordFault FileEntry
  | .array items => do
    let place (i : Nat) : Json := items[i]?.getD .null
    let some slot := (place 0).nat? | throw (.entrySlot (place 0))
    let totals ← totalsOfJson? (place 1)
    let sessionTotals ← SessionTotals.ofJson? (place 2)
    return { slot, totals, sessionTotals, diffTotals := diffTotalsOfJson? (place 3) }
  | _ => .error .entryShape

end FileEntry

structure Report where
  files : Table String FileEntry := ∅
  slots : List (Option SourceFile) := []
  sessions : Table Nat Session := ∅
  labels : Option (Table Nat String) := none
  /-- The totals, once they were computed for the report as it is. -/
  knownTotals : Option Totals := none
  deriving Inhabited

namespace Report

/-- The report after a change: its totals are to be computed anew. -/
def changed (r : Report) : Report := { r with knownTotals := none }

/-! ## Slots -/

/-- The file in a slot. -/
def inSlot? (r : Report) (slot : Nat) : Option SourceFile := (r.slots[slot]?).join

def setSlot (r : Report) (slot : Nat) (f : Option SourceFile) : Report :=
  { r with slots := r.slots.set slot f }

/-- The slot that the manifest names for a file. -/
def slotOf? (r : Report) (name : String) : Option Nat := (r.files.get? name).map (·.slot)

def file? (r : Report) (name : String) : Option SourceFile := (r.slotOf? name).bind r.inSlot?

def file (r : Report) (name : String) : Result SourceFile :=
  match r.file? name with
  | some f => .ok f
  | none => .error (.fileNotFound name)

/-- Put a new state of a file into its slot. -/
def putFile (r : Report) (name : String) (f : SourceFile) : Report :=
  match r.slotOf? name with
  | some slot => r.setSlot slot (some f)
  | none => r

/-- The report once a file was read: the file as the reading left it. -/
def afterReading (r : Report) (name : String) (read : SourceFile → SourceFile) : Report :=
  match r.file? name with
  | some f => r.putFile name (read f)
  | none => r

def contains (r : Report) (name : String) : Bool := (r.file? name).isSome

def names (r : Report) : List String := r.files.keys

/-- The files in the order of their names in the manifest. -/
def sourceFiles (r : Report) : List SourceFile := r.files.values.filterMap fun e => r.inSlot? e.slot

def entry? (r : Report) (name : String) : Option FileEntry := r.files.get? name

/-! ## Files -/

/-- Compute the manifest's totals of a file from its lines. -/
def refresh (r : Report) (name : String) : Report :=
  match r.file? name with
  | some f =>
    { r.putFile name f.opened with
      files := r.files.modify name fun e =>
        { e with totals := f.totals, sessionTotals := f.sessionTotals } }
  | none => r

/-- Put a file into a slot, which is made if it is beyond the last. -/
def fillSlot (r : Report) (slot : Nat) (f : SourceFile) : Report :=
  { r with
    slots := (r.slots ++ List.replicate (slot + 1 - r.slots.length) none).set slot (some f) }

/-- Add a file, or join it with the file of its name. An empty file is refused. -/
def append (r : Report) (f : SourceFile) (joined : Bool := true) : Bool × Report :=
  if f.isEmpty then (false, r)
  else
    -- asking whether it is empty has read its lines
    let f := f.opened
    match r.slotOf? f.name with
    | some slot =>
      match r.inSlot? slot with
      | some own => (true, ((r.setSlot slot (some (own.merge f joined).2)).refresh f.name).changed)
      -- the manifest names a slot that is empty or missing
      | none => (true, ((r.fillSlot slot f).refresh f.name).changed)
    | none =>
      let slot := r.slots.length
      (true, { r with
        files := r.files.insert f.name (.ofFile slot f)
        slots := r.slots ++ [some f]
        knownTotals := none })

def remove (r : Report) (name : String) : Option SourceFile × Report :=
  match r.files.get? name with
  | some e =>
    (r.inSlot? e.slot,
      { r.setSlot e.slot none with files := r.files.erase name, knownTotals := none })
  | none => (none, r)

/-- Put a file under another name; a file that has that name is taken out first. -/
def rename (r : Report) (old new : String) : Bool × Report :=
  if old = new then (r.files.contains old, r)
  else if !r.files.contains old then (false, r)
  else
    let r := (r.remove new).2
    match r.files.get? old with
    | some e =>
      let r := r.afterReading old fun f => { f with name := new }
      (true, { r with files := (r.files.erase old).insert new e, knownTotals := none })
    | none => (false, r)

/-- Apply one path fix: a new name, or none for a file that is to go. -/
def resolvePath (r : Report) (before : String) (after : Option String) : Report :=
  if !r.files.contains before then r
  else
    match after with
    | none => (r.remove before).2
    | some after => if after = before then r else (r.rename before after).2

/-- Apply path fixes one after the other. -/
def resolvePaths (r : Report) (fixes : List (String × Option String)) : Report :=
  fixes.foldl (fun r (before, after) => r.resolvePath before after) r

/-- Add every file of another report. Its sessions are not taken over. -/
def merge (r other : Report) (joined : Bool := true) : Report :=
  other.sourceFiles.foldl (fun r f => (r.append f joined).2) r

/-! ## Sessions and labels -/

/-- The first number from a start on that is not taken; `fuel` numbers are tried. -/
def freeFrom (taken : Nat → Bool) (n : Nat) : Nat → Nat
  | 0 => n
  | fuel + 1 => if taken n then freeFrom taken (n + 1) fuel else n

/-- The id of the next session: the first free one from the number of sessions on. Among one more
number than there are sessions, one is free. -/
def nextSession (r : Report) : Nat :=
  freeFrom r.sessions.contains r.sessions.size (r.sessions.size + 1)

def addSession (r : Report) (s : Session) : Nat × Report :=
  let id := r.nextSession
  (id, { r with sessions := r.sessions.insert id s, knownTotals := none })

/-- Add a session under an id of its own. -/
def addSessionWithId (r : Report) (id : Nat) (s : Session) : Result Report :=
  if r.sessions.contains id then .error (.sessionInUse id)
  else .ok { r with sessions := r.sessions.insert id s, knownTotals := none }

/-- Every flag of any session, ascending. -/
def flags (r : Report) : List String := ascend (r.sessions.values.flatMap (·.flags))

def label? (r : Report) (id : Nat) : Option String := r.labels.bind fun t => t.get? id

/-! ## Totals -/

/-- The totals of a file: of its lines once they were read, and those of the manifest before. -/
def fileTotals? (r : Report) (name : String) : Option Totals :=
  (r.files.get? name).map fun e =>
    match r.inSlot? e.slot with
    | some f => if f.isParsed then f.totals else e.totals
    | none => e.totals

/-- The totals computed from the files and sessions. -/
def computedTotals (r : Report) : Totals :=
  { Totals.sum (r.names.filterMap r.fileTotals?) with sessions := r.sessions.size }

def totals (r : Report) : Totals × Report :=
  let t := r.knownTotals.getD r.computedTotals
  (t, { r with knownTotals := some t })

/-! ## Diffs -/

/-- Totals of the lines that a diff adds, given the line that a source shows for a path and a
number; a path that the source does not show is left out. -/
def diffTotalsOf (d : Diff) (source : String → Option (Nat → Option Line)) : DiffTotals :=
  .ofFiles <| d.files.filterMap fun path f =>
    if f.contributes then
      (source path).map fun line? => .ofLines (f.addedLines.filterMap line?)
    else none

/-- The report once the lines that a diff adds were looked up. -/
def afterDiff (r : Report) (d : Diff) : Report :=
  d.files.entries.foldl
    (fun r (path, f) =>
      if f.contributes then r.afterReading path fun file => file.afterLines f.addedLines else r) r

def diffTotals (r : Report) (d : Diff) : DiffTotals :=
  diffTotalsOf d fun path => (r.file? path).map SourceFile.line?

/-- The totals of the lines that a diff adds, and the report after looking them up. -/
def calculateDiff (r : Report) (d : Diff) : DiffTotals × Report := (r.diffTotals d, r.afterDiff d)

/-- Store the totals of a diff in the manifest. -/
def withDiffTotals (r : Report) (result : DiffTotals) : Report :=
  { r with files := r.files.map fun path e =>
      match result.files.get? path with
      | some t => { e with diffTotals := some t }
      | none => e }

/-- Compute the totals of a diff and store them in the diff and in the manifest. A diff without
files is left alone. -/
def applyDiff (r : Report) (d : Diff) : Option Totals × Diff × Report :=
  if d.files.isEmpty then (none, d, r)
  else
    let (result, r) := r.calculateDiff d
    (some result.totals, d.withFileTotals result, r.withDiffTotals result)

/-- Follow the line numbers of one file through its hunks. -/
def shiftFile (r : Report) (path : String) (f : DiffFile) (direction : Direction) : Report :=
  if f.kind ≠ .modified ∨ f.hunks.isEmpty then r
  else if !r.files.contains path then r
  else
    -- the totals are forgotten even when the hunks turn out not to fit
    let r := r.changed
    match r.file? path with
    | none => r
    | some file =>
      match file.shift f.hunks direction with
      | (true, file) => (r.putFile path file).refresh path
      | (false, _) => r

/-- Follow the line numbers of every modified file through a diff. -/
def shift (r : Report) (d : Diff) (direction : Direction) : Report :=
  d.files.entries.foldl (fun r (path, f) => r.shiftFile path f direction) r

/-! ## Slots in order -/

/-- The numbers of the slots that are not empty. -/
def occupiedFrom (n : Nat) : List (Option SourceFile) → List Nat
  | [] => []
  | some _ :: rest => n :: occupiedFrom (n + 1) rest
  | none :: rest => occupiedFrom (n + 1) rest

/-- Whether the manifest names exactly the slots that are not empty, each once. -/
def isConsistent (r : Report) : Bool :=
  let named := ascend (r.files.values.map (·.slot))
  named.length == r.files.size && named == occupiedFrom 0 r.slots

/-- Close up the slots: the empty ones go, and the manifest names the new places. A report whose
manifest does not fit its slots is left alone. -/
def repack (r : Report) : Bool × Report :=
  if r.isConsistent then
    let occupied := occupiedFrom 0 r.slots
    (true, { r with
      files := r.files.map fun _ e => { e with slot := occupied.idxOf e.slot }
      slots := r.slots.filter Option.isSome })
  else (false, r)

end Report

end CoverageLedger
