import CoverageLedger.Diff

/-!
# Unified diff text

`Diff.parse` reads the text that version control prints. A hunk header says how many lines of each
side follow, and exactly those are taken as lines of the hunk, whatever they look like. A file whose
old side is missing is new, one whose new side is missing is deleted, and any other is modified.
-/

namespace CoverageLedger

def missingSide : String := "/dev/null"

/-- How far the reading of a unified diff has come. -/
structure UnifiedState where
  files : Table String DiffFile := ∅
  /-- The path on the old side, once it was read. -/
  oldPath : Option String := none
  current : Option (String × DiffFile) := none
  /-- The lines still to come in the present hunk on the old side. -/
  oldLeft : Nat := 0
  /-- The lines still to come in the present hunk on the new side. -/
  newLeft : Nat := 0

namespace UnifiedState

/-- Close the present file; a path that was seen before gets its hunks as well. -/
def flush (s : UnifiedState) : UnifiedState :=
  match s.current with
  | none => s
  | some (path, file) =>
    let file : DiffFile :=
      match s.files.get? path with
      | some known => { known with hunks := known.hunks ++ file.hunks }
      | none => file
    { s with files := s.files.insert path file, current := none }

/-- The path in a header line: up to a tab, without blanks at its end and without the one-letter
directory that version control puts before it. -/
def pathOf (cs : List Char) : String :=
  let cs := Text.trimEnd (cs.takeWhile (· ≠ '\t'))
  let bare :=
    match Text.afterStart "b/".toList cs with
    | some rest => rest
    | none => (Text.afterStart "a/".toList cs).getD cs
  String.ofList bare

/-- A side of a hunk header: a start, and a length that is one when it is not given. -/
def side? (cs : List Char) : Option (Nat × Nat) :=
  match Text.splitAt ',' cs with
  | [] => none
  | [start] => (Text.nat32? start).map fun s => (s, 1)
  | start :: length :: _ => do return (← Text.nat32? start, ← Text.nat32? length)

/-- The numbers of a hunk header after its opening mark. -/
def span? (cs : List Char) : Option HunkSpan :=
  match Text.splitAt ' ' cs with
  | ('-' :: old) :: ('+' :: new) :: _ => do
    let (oldStart, oldLength) ← side? old
    let (newStart, newLength) ← side? new
    return ⟨oldStart, oldLength, newStart, newLength⟩
  | _ => none

/-- Put a line into the last hunk of a file. -/
def addLine (line : String) (file : DiffFile) : DiffFile :=
  match file.hunks.getLast? with
  | some hunk =>
    { file with hunks := file.hunks.dropLast ++ [{ hunk with lines := hunk.lines ++ [line] }] }
  | none => file

/-- Read a line inside a hunk. A remark of version control is passed over. -/
def hunkLine (s : UnifiedState) (line : String) : UnifiedState :=
  -- such a remark belongs to neither side
  if line.toList.head? = some '\\' then s
  else
    let s := { s with current := s.current.map fun (path, file) => (path, addLine line file) }
    match LineMark.of line with
    | .added => { s with newLeft := s.newLeft - 1 }
    | .removed => { s with oldLeft := s.oldLeft - 1 }
    | .kept => { s with oldLeft := s.oldLeft - 1, newLeft := s.newLeft - 1 }

def change (old : Option String) (new : String) : ChangeKind × String :=
  match old with
  | some o =>
    if o = missingSide then (.new, new)
    else if new = missingSide then (.deleted, o)
    else (.modified, new)
  | none => (.modified, new)

def headerLine (s : UnifiedState) (cs : List Char) : UnifiedState :=
  if "diff --git ".toList.isPrefixOf cs then { s.flush with oldPath := none }
  else
    match Text.afterStart "--- ".toList cs with
    | some rest => { s with oldPath := some (pathOf rest) }
    | none =>
      match Text.afterStart "+++ ".toList cs with
      | some rest =>
        let (kind, path) := change s.oldPath (pathOf rest)
        { s.flush with oldPath := none, current := some (path, { kind }) }
      | none =>
        match s.current, (Text.afterStart "@@ ".toList cs).bind span? with
        | some (path, file), some span =>
          { s with
            oldLeft := span.oldLength
            newLeft := span.newLength
            current := some (path, { file with hunks := file.hunks ++ [⟨span.header, []⟩] }) }
        | _, _ => s

def row (s : UnifiedState) (cs : List Char) : UnifiedState :=
  if 0 < s.oldLeft ∨ 0 < s.newLeft then s.hunkLine (String.ofList cs) else s.headerLine cs

end UnifiedState

namespace Diff

def parse (text : String) : Diff :=
  let s := (Text.rows text.toList).foldl UnifiedState.row {}
  { files := s.flush.files }

end Diff

end CoverageLedger
