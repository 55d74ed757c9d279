import CoverageLedger.Totals

/-!
# Diffs

A diff says for each path what changed: the kind of change and the hunks, each with its header and
its lines. `Hunk.addedLines` gives the lines of the new side that a hunk adds. Diffs come as unified
diff text (`Diff/Unified`) or as JSON (`Diff.ofJson?`).
-/

namespace CoverageLedger

inductive ChangeKind where
  | new
  | modified
  | deleted
  | other
  deriving DecidableEq, Repr

namespace ChangeKind

def name : ChangeKind → String
  | .new => "new"
  | .modified => "modified"
  | .deleted => "deleted"
  | .other => "other"

/-- Names of other changes are read too. -/
def ofName (s : String) : ChangeKind :=
  if s = "new" then .new
  else if s = "modified" then .modified
  else if s = "deleted" then .deleted
  else .other

end ChangeKind

structure Hunk where
  header : HunkHeader
  lines : List String
  deriving DecidableEq, Repr

/-- What a hunk does to a line, by the mark that the line starts with. -/
inductive LineMark where
  | added
  | removed
  | kept
  deriving DecidableEq, Repr

def LineMark.of (line : String) : LineMark :=
  match line.toList.head? with
  | some '+' => .added
  | some '-' => .removed
  | _ => .kept

/-- The numbers of a hunk header, all of them known. -/
structure HunkSpan where
  oldStart : Nat
  oldLength : Nat
  newStart : Nat
  newLength : Nat
  deriving DecidableEq, Repr

namespace HunkSpan

def header (s : HunkSpan) : HunkHeader :=
  [some s.oldStart, some s.oldLength, some s.newStart, some s.newLength]

end HunkSpan

namespace Hunk

/-- The numbers of the header; a length that is not given is one. -/
def span? (h : Hunk) : Except HunkFault HunkSpan :=
  match h.header with
  | [some oldStart, oldLength, some newStart, newLength] =>
    .ok ⟨oldStart, oldLength.getD 1, newStart, newLength.getD 1⟩
  | _ => .error (.header h.header)

def newStart (h : Hunk) : Nat :=
  match h.header[2]? with
  | some (some start) => if 0 < start then start else 1
  | _ => 1

/-- The added ones among lines that start at a number on the new side. Numbers stay inside 32
bits. -/
def addedFrom (n : Nat) : List String → List Nat
  | [] => []
  | line :: rest =>
    let next := min (n + 1) (Text.word32 - 1)
    match LineMark.of line with
    | .removed => addedFrom n rest
    | .added => n :: addedFrom next rest
    | .kept => addedFrom next rest

def addedLines (h : Hunk) : List Nat := addedFrom h.newStart h.lines

end Hunk

structure DiffFile where
  kind : ChangeKind
  hunks : List Hunk := []
  totals : Option Totals := none
  deriving Repr

namespace DiffFile

/-- Only new and modified files have added lines that count. -/
def contributes (f : DiffFile) : Bool := f.kind == .new || f.kind == .modified

/-- The lines of the new side that a diff adds to a file. -/
def addedLines (f : DiffFile) : List Nat := f.hunks.flatMap Hunk.addedLines

end DiffFile

/-- What changed, by path, and the totals of the added lines once they were computed. -/
structure Diff where
  files : Table String DiffFile := ∅
  totals : Option Totals := none
  deriving Inhabited

/-- The totals of the lines that a diff adds: one entry for each file with data, and their sum. -/
structure DiffTotals where
  files : Table String Totals := ∅
  totals : Totals := {}
  deriving Inhabited

/-- The sum of the files' totals; without lines there is neither coverage nor complexity. -/
def DiffTotals.ofFiles (files : Table String Totals) : DiffTotals :=
  { files, totals := (Totals.sum files.values).nullIfEmpty }

namespace Diff

def withDirectory (directory : String) (d : Diff) : Diff :=
  let directory := String.ofList (Text.dropLastWhile (· == '/') directory.toList)
  { d with files := .ofList (d.files.entries.map fun (path, f) => (directory ++ "/" ++ path, f)) }

/-- Store the computed totals with the files of a diff. -/
def withFileTotals (d : Diff) (result : DiffTotals) : Diff :=
  { files := d.files.map fun path f =>
      match result.files.get? path with
      | some t => { f with totals := some t }
      | none => f
    totals := some result.totals }

/-! ## The form in JSON -/

/-- A field that is left out when it is absent. -/
def optionalField {α : Type} (name : String) (f : α → Json) : Option α → List (String × Json)
  | some a => [(name, f a)]
  | none => []

end Diff

namespace Hunk

def toJson (h : Hunk) : Json :=
  .object [("header", .ofList (.ofOption .nat) h.header), ("lines", .ofList .string h.lines)]

/-- A number of a header: a number or its text; anything else is absent. -/
def headerPart : Json → Option Nat
  | .string s => Text.nat32? s.toList
  | j => j.nat?.map (· % Text.word32)

def ofJson? (j : Json) : Option Hunk := do
  let fields ← j.record? ["header", "lines"]
  let header ← (fields[0]?).join
  return {
    header := ← Json.list? (fun j => some (headerPart j)) header
    lines := ← match (fields[1]?).join with
      | some j => Json.list? Json.string? j
      | none => some [] }

end Hunk

namespace DiffFile

def toJson (f : DiffFile) : Json :=
  .object <|
    [("type", .string f.kind.name), ("segments", .ofList Hunk.toJson f.hunks)] ++
      Diff.optionalField "totals" Totals.toJson f.totals

def totalsOfJson? (j : Json) : Option Totals := (Totals.ofJson? j).toOption

def ofJson? (j : Json) : Option DiffFile := do
  let fields ← j.record? ["type", "segments", "totals"]
  let kind ← (fields[0]?).join
  return {
    kind := .ofName (← kind.caseName?)
    hunks := ← match (fields[1]?).join with
      | some j => Json.list? Hunk.ofJson? j
      | none => some []
    totals := ← Json.optional? totalsOfJson? (((fields[2]?).join).getD .null) }

end DiffFile

namespace Diff

def toJson (d : Diff) : Json :=
  .object <|
    ("files", .ofTable (d.files.map fun _ f => f.toJson)) ::
      optionalField "totals" Totals.toJson d.totals

def ofJson? (j : Json) : Option Diff := do
  let fields ← j.record? ["files", "totals"]
  return {
    files := ← match (fields[0]?).join with
      | some j => Json.table? DiffFile.ofJson? j
      | none => some ∅
    totals := ← Json.optional? DiffFile.totalsOfJson? (((fields[1]?).join).getD .null) }

end Diff

end CoverageLedger
