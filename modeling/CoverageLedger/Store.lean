import CoverageLedger.Report.Archive

/-!
# Stores

A store keeps bytes under keys. A report has two entries, its archive and its manifest, under keys
made of its name. A `Database` is a store in a file that also says by which schema it was written.
-/

namespace CoverageLedger

/-- Bytes under keys; what is written last under a key stays. -/
abbrev Store := Table String ByteArray

namespace Store

def archiveKey (report : String) : String := report ++ "/chunks.txt"

def manifestKey (report : String) : String := report ++ "/report.json"

/-- The text of one part of a stored report. -/
def text? (report : String) (part : BlobPart) (bytes : ByteArray) : Result String :=
  match Text.decodeUtf8 bytes with
  | .ok text => .ok text
  | .error fault => .error (.notUtf8 report part fault)

def load (s : Store) (report : String) : Result Report :=
  match s.get? (archiveKey report), s.get? (manifestKey report) with
  | some archive, some manifest => do
    let archive ← text? report .archive archive
    let manifest ← text? report .manifest manifest
    Report.ofTexts archive manifest
  | _, _ => .error (.reportNotFound report)

def save (s : Store) (report : String) (r : Report) : Store :=
  (s.insert (archiveKey report) r.archive.toUTF8).insert (manifestKey report) r.manifestText.toUTF8

def holds (s : Store) (report : String) : Bool := s.contains (manifestKey report)

end Store

/-- A store in a file. -/
structure Database where
  /-- The version of the schema, which a new file does not have yet. -/
  version : Option Int := none
  blobs : Store := ∅

/-- Open a database. A new one gets the present version, and one of any other version is refused. -/
def Database.open? (d : Database) : Result Database :=
  match d.version with
  | none => .ok { d with version := some schemaVersion }
  | some v =>
    if v = schemaVersion then .ok d
    -- no version is written like this
    else if v < 0 ∨ (Text.word32 : Int) ≤ v then .error .database
    else if (schemaVersion : Int) < v then .error (.schema (.newer v.toNat))
    else .error (.schema (.older v.toNat))

end CoverageLedger
