import CoverageLedger.Error
import CoverageLedger.Table
import CoverageLedger.Text.Blank
import CoverageLedger.Text.Numeral
import CoverageLedger.Text.Rows
import CoverageLedger.Text.Utf8

/-!
# Tracefiles

A tracefile in the LCOV format is a list of records, one in a row. `TraceRecord.ofRow?` reads a row
and passes over rows that mean nothing. The records from one `SF` record up to the next, or up to an
`end_of_record`, make a section, and a section makes a `TracedFile`.

The records that count are `SF:path`, `FN:first,name` or `FN:first,last,name`, `FNDA:hits,name`,
`DA:line,hits` with more fields after it, and `BRDA:line,block,branch,taken`. Summary records repeat
what the others say.
-/

namespace CoverageLedger

inductive TraceRecord where
  | source (path : String)
  | function (name : String) (first : Nat) (last : Option Nat)
  | functionHits (name : String) (hits : Nat)
  | line (number hits : Nat)
  | branch (line hits : Nat)
  | endOfSection
  deriving DecidableEq, Repr

/-- How often a line was reached. -/
structure LineHits where
  line : Nat
  hits : Nat
  deriving DecidableEq, Repr

/-- How often one arm of a branch was taken. Arms of a line are numbered from zero. -/
structure ArmHits where
  line : Nat
  arm : Nat
  hits : Nat
  deriving DecidableEq, Repr

/-- How often a function was called, and where it is when that is known. -/
structure FunctionHits where
  name : String
  first : Option Nat
  last : Option Nat
  hits : Nat
  deriving DecidableEq, Repr

structure TracedFile where
  path : String
  lines : List LineHits := []
  arms : List ArmHits := []
  functions : List FunctionHits := []
  deriving DecidableEq, Repr

namespace TraceRecord

/-! ## Rows -/

/-- A function record. A function's name may hold commas, so that the part after the first one is a
last line only when it is a number. -/
def function? (value : List Char) : Option TraceRecord := do
  let (first, rest) ← Text.splitOnce ',' value
  let first ← Text.nat32? first
  let bare := function (String.ofList rest) first none
  match Text.splitOnce ',' rest with
  | none => bare
  | some (last, name) =>
    match Text.nat32? last with
    | some last => function (String.ofList name) first (some last)
    | none => bare

/-- The calls of a function; a count that cannot be read is zero. -/
def functionHits? (value : List Char) : Option TraceRecord := do
  let (hits, name) ← Text.splitOnce ',' value
  return functionHits (String.ofList name) ((Text.nat64? hits).getD 0)

/-- The hits of a line. A negative count marks a line that does not count. -/
def line? (value : List Char) : Option TraceRecord := do
  let number :: hits :: _ := Text.splitFirst ',' 2 value | none
  let number ← Text.nat32? number
  let hits ← Text.int64? hits
  if number = 0 ∨ hits < 0 then none else line number hits.toNat

/-- An arm of a branch; a dash, or a count that cannot be read, is zero. -/
def branch? (value : List Char) : Option TraceRecord := do
  let [number, _, _, taken] := Text.splitFirst ',' 3 value | none
  return branch (← Text.nat32? number) ((Text.nat64? taken).getD 0)

/-- The record of a row, if the row means anything. -/
def ofRow? (row : List Char) : Option TraceRecord :=
  let row := Text.trim row
  -- the only record without a colon
  if row = "end_of_record".toList then some endOfSection
  else do
    let (tag, value) ← Text.splitOnce ':' row
    match String.ofList tag with
    | "SF" => some (source (String.ofList value))
    | "FN" => function? value
    | "FNDA" => functionHits? value
    | "DA" => line? value
    | "BRDA" => branch? value
    | _ => none

/-! ## Sections -/

/-- A path, and the records about it from the last to the first. -/
abbrev OpenSection := Option (String × List TraceRecord)

/-- The sections of records, after those of the open section. Records outside of any section mean
nothing. -/
def sectionsFrom (opened : OpenSection) : List TraceRecord → List (String × List TraceRecord)
  | [] => close
  | source path :: rest => close ++ sectionsFrom (some (path, [])) rest
  | endOfSection :: rest => close ++ sectionsFrom none rest
  | r :: rest => sectionsFrom (opened.map fun (path, records) => (path, r :: records)) rest
where
  close : List (String × List TraceRecord) :=
    opened.toList.map fun (path, records) => (path, records.reverse)

/-- The hits of lines in a section. -/
def lineHits (records : List TraceRecord) : List LineHits :=
  records.filterMap fun
    | line number hits => some ⟨number, hits⟩
    | _ => none

/-- The arms of branches in a section, numbered within each line; `earlier` are the lines of those
that came before. The numbers of arms have 32 bits, which a text with fewer than 2^32 of them for a
line cannot exceed: no other text is meant. -/
def armHits (earlier : List Nat) : List TraceRecord → List ArmHits
  | [] => []
  | branch n hits :: rest => ⟨n, earlier.count n, hits⟩ :: armHits (n :: earlier) rest
  | _ :: rest => armHits earlier rest

/-- The calls of functions in a section, each placed where its name was last defined before. -/
def calls (places : Table String (Nat × Option Nat)) : List TraceRecord → List FunctionHits
  | [] => []
  | function name first last :: rest => calls (places.insert name (first, last)) rest
  | functionHits name hits :: rest =>
    let place := places.get? name
    ⟨name, place.map Prod.fst, place.bind Prod.snd, hits⟩ :: calls places rest
  | _ :: rest => calls places rest

end TraceRecord

namespace TracedFile

/-- The file of a section. -/
def ofSection (path : String) (records : List TraceRecord) : TracedFile :=
  { path
    lines := TraceRecord.lineHits records
    arms := TraceRecord.armHits [] records
    functions := TraceRecord.calls ∅ records }

def ofRows (rows : List (List Char)) : List TracedFile :=
  (TraceRecord.sectionsFrom none (rows.filterMap TraceRecord.ofRow?)).map fun (path, records) =>
    ofSection path records

def ofText (text : String) : List TracedFile := ofRows (Text.splitAt '\n' text.toList)

/-- The number of the row, from one on, that holds a byte. -/
def rowOfByte (bytes : ByteArray) (index : Nat) : Nat := (bytes.toList.take index).count 10 + 1

/-- The files of a tracefile, which must be UTF-8 text. -/
def ofBytes? (bytes : ByteArray) : Result (List TracedFile) :=
  match Text.decodeUtf8 bytes with
  | .ok text => .ok (ofText text)
  | .error fault => .error (.record (.tracefileBytes (rowOfByte bytes fault.index)))

end TracedFile

end CoverageLedger
