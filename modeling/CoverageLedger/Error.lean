import CoverageLedger.Json.Printer
import CoverageLedger.Text.Utf8

/-!
# What can go wrong

Every failure of the library is an `Error`, which names its cause. `Error.kind` sorts the causes,
and `Error.message?` is the sentence shown for one. Five kinds report what another party found wrong
(the file system, the database, a JSON text, the settings, a path pattern) and carry no sentence.
-/

namespace CoverageLedger

inductive RecordFault where
  | shortRange (count : Nat)
  | notARange (value : Json)
  | readingIsObject
  | unknownReading (text : String)
  | shortLineSession (count : Nat)
  | lineSessionWithoutId
  | datapointWithoutId
  | emptyLine
  | totalsShape (value : Json)
  | sessionTotalsKey (key : String)
  | sessionTotalsShape (value : Json)
  | entryShape
  | entrySlot (value : Json)
  | tracefileBytes (row : Nat)

def RecordFault.message : RecordFault → String
  | .shortRange count => "partial range needs 3 elements, got " ++ toString count
  | .notARange value => "expected partial range, got " ++ value.render
  | .readingIsObject => "coverage cannot be an object"
  | .unknownReading text => "unrecognised coverage '" ++ text ++ "'"
  | .shortLineSession count => "line session needs at least 2 elements, got " ++ toString count
  | .lineSessionWithoutId => "line session without id"
  | .datapointWithoutId => "datapoint without session id"
  | .emptyLine => "empty line record"
  | .totalsShape value => "totals must be an array, got " ++ value.render
  | .sessionTotalsKey key => "bad session id '" ++ key ++ "' in session totals"
  | .sessionTotalsShape value => "session totals must be a list or object, got " ++ value.render
  | .entryShape => "file summary must be an array"
  | .entrySlot value => "bad chunk index " ++ value.render
  | .tracefileBytes row =>
    "LCOV line " ++ toString row ++ ": stream did not contain valid UTF-8"

/-- A hunk header: where a hunk starts and how long it is, on the old side and on the new side. -/
abbrev HunkHeader := List (Option Nat)

def HunkHeader.text (header : HunkHeader) : String :=
  let part : Option Nat → String
    | some n => "Some(" ++ toString n ++ ")"
    | none => "None"
  "[" ++ ", ".intercalate (header.map part) ++ "]"

inductive HunkFault where
  | header (header : HunkHeader)
  | pastLastLine (header : HunkHeader)
  | overlap (line : Nat)
  | lengths (header : HunkHeader)

def HunkFault.message : HunkFault → String
  | .header h => "bad segment header " ++ h.text
  | .pastLastLine h => "segment " ++ h.text ++ " runs past the last line number"
  | .overlap line => "segment at line " ++ toString line ++ " overlaps previous segment"
  | .lengths h => "segment lines do not match header " ++ h.text

inductive BlobPart where
  | archive
  | manifest

def BlobPart.name : BlobPart → String
  | .archive => "archive"
  | .manifest => "manifest"

inductive SchemaFault where
  | newer (version : Nat)
  | older (version : Nat)

/-- The version of the database layout that the library reads and writes. -/
def schemaVersion : Nat := 1

def SchemaFault.message : SchemaFault → String
  | .newer version =>
    "Database schema version " ++ toString version ++ " is newer than this binary supports (" ++
      toString schemaVersion ++ "). Please upgrade covstore."
  | .older version =>
    "No migration path from schema version " ++ toString version ++ " to " ++
      toString schemaVersion ++ "."

inductive ErrorKind where
  | io
  | database
  | json
  | settings
  | pattern
  | lineNumber
  | fileNotFound
  | sessionNotFound
  | sessionInUse
  | archive
  | diff
  | record
  | reportNotFound
  | store
  deriving DecidableEq, Repr

def ErrorKind.sentence? : ErrorKind → String → Option String
  | .io, _ | .database, _ | .json, _ | .settings, _ | .pattern, _ => none
  | .lineNumber, n => some ("Line numbers start at 1, got " ++ n)
  | .fileNotFound, name => some ("File not found in report: " ++ name)
  | .sessionNotFound, id => some ("Session not found: " ++ id)
  | .sessionInUse, id => some ("Session id " ++ id ++ " is already in use")
  | .archive, detail => some ("Malformed archive: " ++ detail)
  | .diff, detail => some ("Malformed diff: " ++ detail)
  | .record, detail => some ("Parse error: " ++ detail)
  | .reportNotFound, name => some ("Report not found: " ++ name)
  | .store, detail => some ("Storage error: " ++ detail)

inductive Error where
  | io
  | database
  | json
  | settings
  | pattern
  | lineNumber (n : Nat)
  | fileNotFound (name : String)
  | sessionNotFound (id : Nat)
  | sessionInUse (id : Nat)
  | notUtf8 (report : String) (part : BlobPart) (fault : Utf8Fault)
  | hunk (fault : HunkFault)
  | record (fault : RecordFault)
  | reportNotFound (name : String)
  | schema (fault : SchemaFault)

namespace Error

def kind : Error → ErrorKind
  | .io => .io
  | .database => .database
  | .json => .json
  | .settings => .settings
  | .pattern => .pattern
  | .lineNumber _ => .lineNumber
  | .fileNotFound _ => .fileNotFound
  | .sessionNotFound _ => .sessionNotFound
  | .sessionInUse _ => .sessionInUse
  | .notUtf8 .. => .archive
  | .hunk _ => .diff
  | .record _ => .record
  | .reportNotFound _ => .reportNotFound
  | .schema _ => .store

def detail : Error → String
  | .io | .database | .json | .settings | .pattern => ""
  | .lineNumber n => toString n
  | .fileNotFound name => name
  | .sessionNotFound id => toString id
  | .sessionInUse id => toString id
  | .notUtf8 report part fault =>
    report ++ ": " ++ part.name ++ " is not UTF-8: " ++ fault.message
  | .hunk fault => fault.message
  | .record fault => fault.message
  | .reportNotFound name => name
  | .schema fault => fault.message

def message? (e : Error) : Option String := e.kind.sentence? e.detail

end Error

abbrev Result (α : Type) := Except Error α

/-- Steps give a result when each of them does. -/
theorem Result.bind_eq_ok {ε α β : Type} {x : Except ε α} {f : α → Except ε β} {b : β} :
    x >>= f = .ok b ↔ ∃ a, x = .ok a ∧ f a = .ok b := by
  cases x with
  | error e =>
    constructor
    · intro h
      cases h
    · rintro ⟨a, h, -⟩
      cases h
  | ok a =>
    constructor
    · exact fun h => ⟨a, rfl, h⟩
    · rintro ⟨a', h, hf⟩
      cases h
      exact hf

theorem Result.eq_ok_of_toOption {ε α : Type} {x : Except ε α} {a : α}
    (h : x.toOption = some a) : x = .ok a := by
  cases x with
  | error e => cases h
  | ok b => exact congrArg Except.ok (Option.some.inj h)

/-- A value read from JSON, or the failure of the JSON text or value around it. -/
def jsonResult {α : Type} : Option α → Result α
  | some a => .ok a
  | none => .error .json

/-- A value, or a fault of the record that holds it. -/
def recordResult {α : Type} : Except RecordFault α → Result α
  | .ok a => .ok a
  | .error fault => .error (.record fault)

end CoverageLedger
