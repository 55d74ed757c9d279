import CoverageLedger.Report

/-!
# Archives

A report is stored as two texts. The archive holds the chunks of its slots one after the other,
`null` for an empty slot, and before them a header with the labels. The manifest is a JSON document
with the entries of the files and the sessions. Chunks that were never read are copied as they are.
-/

namespace CoverageLedger

/-- The row between two chunks. -/
def endOfChunk : String := "<<<<< end_of_chunk >>>>>"

/-- The row between the header and the first chunk. -/
def endOfHeader : String := "<<<<< end_of_header >>>>>"

/-- The chunk of an empty slot. -/
def emptyChunk : String := "null"

/-- What separates two chunks. -/
def chunkSeparator : String := "\n" ++ endOfChunk ++ "\n"

structure Manifest where
  files : Table String FileEntry := ∅
  sessions : Table Nat Session := ∅
  deriving Inhabited

namespace Manifest

def fieldNames : List String := ["files", "sessions"]

/-- An object whose names are numbers, in the order of the numbers. -/
def numberedObject {α : Type} (f : α → Json) (t : Table Nat α) : Json :=
  .object (t.entries.map fun (n, a) => (toString n, f a))

def toJson (m : Manifest) : Json :=
  .object [
    ("files", .ofTable (m.files.map fun _ e => e.toJson)),
    ("sessions", numberedObject Session.toJson m.sessions)]

/-- The entry of a file in a manifest. -/
def entryOfJson? (j : Json) : Option FileEntry := (FileEntry.ofJson? j.normal).toOption

def ofJson? (j : Json) : Option Manifest := do
  let fields ← j.record? fieldNames
  return {
    files := ← match (fields[0]?).join with
      | some j => Json.table? entryOfJson? j
      | none => some ∅
    sessions := ← match (fields[1]?).join with
      | some j => Json.numberedTable? Session.ofJson? j
      | none => some ∅ }

/-- What is read of a manifest. -/
def form : Json.Form := .record [("files", .whole), ("sessions", .numbered Session.form)]

def ofText? (s : String) : Option Manifest := (Json.parseAs? form s.toList).bind ofJson?

end Manifest

namespace Report

/-! ## Writing -/

/-- The name of the field of an archive header. -/
def labelsField : String := "labels_index"

/-- The header of an archive. -/
def headerJson (r : Report) : Json :=
  .object (Diff.optionalField labelsField (Manifest.numberedObject .string) r.labels)

/-- The header of an archive with the row after it. -/
def headerText (r : Report) : String := r.headerJson.render ++ "\n" ++ endOfHeader ++ "\n"

/-- The chunk of a slot. -/
def slotText : Option SourceFile → String
  | some f => f.encode
  | none => emptyChunk

def body (r : Report) : String := chunkSeparator.intercalate (r.slots.map slotText)

def archive (r : Report) (header : Bool := true) : String :=
  if header then r.headerText ++ r.body else r.body

/-- The manifest, with the totals of every file whose lines were read taken from them. -/
def manifest (r : Report) : Manifest :=
  { files := r.files.map fun _ e =>
      match r.inSlot? e.slot with
      | some f => if f.isParsed then { e with totals := f.totals } else e
      | none => e
    sessions := r.sessions }

def manifestText (r : Report) : String := r.manifest.toJson.render

/-! ## Reading -/

/-- The header of an archive, if its second row is the one that ends a header, and the chunks. -/
def splitHeader (cs : List Char) : Option (List Char) × List Char :=
  match Text.splitFirst '\n' 2 cs with
  | header :: marker :: rest =>
    if Text.dropLastWhile (· == '\r') marker = endOfHeader.toList then
      (some header, rest.headD [])
    else (none, cs)
  | _ => (none, cs)

/-- The labels in the header of an archive; a malformed header has none. -/
def labelsOfHeader (header : List Char) : Option (Table Nat String) := do
  let form : Json.Form := .record [(labelsField, .numbered .whole)]
  let fields ← (← Json.parseAs? form header).record? [labelsField]
  let labels ← Json.optional? (Json.numberedTable? Json.string?) (((fields[0]?).join).getD .null)
  labels

/-- The name that a manifest gives to a slot: the last one when it gives several, and an empty one
when it gives none. -/
def nameOfSlot (m : Manifest) (slot : Nat) : String :=
  ((m.files.entries.reverse.find? fun e => e.2.slot == slot).map Prod.fst).getD ""

def slotOfChunk (m : Manifest) (slot : Nat) (chunk : List Char) : Option SourceFile :=
  if Text.trim chunk = emptyChunk.toList then none
  else some { name := nameOfSlot m slot, content := .text (String.ofList chunk) }

/-- The report of an archive and its manifest. No chunk is read yet. -/
def ofArchive (text : String) (m : Manifest) : Report :=
  let (header, body) := splitHeader text.toList
  -- an empty body has no chunk, not one that is empty
  let chunks := if body.isEmpty then [] else Text.splitText chunkSeparator.toList body
  { files := m.files
    slots := chunks.mapIdx (slotOfChunk m)
    sessions := m.sessions
    labels := header.bind labelsOfHeader }

def ofTexts (text manifest : String) : Result Report :=
  match Manifest.ofText? manifest with
  | some m => .ok (ofArchive text m)
  | none => .error .json

end Report

end CoverageLedger
