import CoverageLedger.Json.Reader
import CoverageLedger.Line

/-!
# Line records

Lines, line sessions and datapoints are stored as arrays whose places have fixed meanings. On
reading, a place that is missing and one that holds null mean the same, and places after the last
are passed over. A line session leaves out nulls at its end; lines and datapoints are written in
full.
-/

namespace CoverageLedger

/-- A place of a record: absent, null, or a value that must be readable. -/
def slot? {α : Type} (read : Json → Option α) : Option Json → Result (Option α)
  | none => .ok none
  | some .null => .ok none
  | some j => jsonResult ((read j).map some)

/-- The reading at a place of a record. -/
def readingSlot? (j : Option Json) : Result Reading := do
  let r ← slot? (fun j => (Reading.ofJson? j).toOption) j
  return r.getD .absent

namespace BranchArm

def toJson : BranchArm → Json
  | .index i => .int i
  | .name s => .string s

def ofJson? : Json → Option BranchArm
  | .string s => some (.name s)
  | j => j.int64?.map .index

end BranchArm

namespace Complexity

def toJson : Complexity → Json
  | .total n => .int n
  | .pair c t => .array [.int c, .int t]

def ofJson? : Json → Option Complexity
  | .array [c, t] => do return .pair (← c.int64?) (← t.int64?)
  | j => j.int64?.map .total

end Complexity

namespace LineKind

def letter : LineKind → String
  | .branch => "b"
  | .method => "m"

def ofJson? (j : Json) : Option LineKind :=
  match j.caseName? with
  | some "b" => some .branch
  | some "m" => some .method
  | _ => none

end LineKind

namespace LineSession

/-- The places of the record, without nulls at the end, but at least two. -/
def items (s : LineSession) : List Json :=
  let optional := [
    Json.ofOption (Json.ofList BranchArm.toJson) s.missing,
    Json.ofOption (Json.ofList ColumnRange.toJson) s.partials,
    Json.ofOption Complexity.toJson s.complexity]
  [.nat s.id, s.reading.toJson] ++ Text.dropLastWhile Json.isNull optional

def toJson (s : LineSession) : Json := .array s.items

def ofItems? (items : List Json) : Result LineSession := do
  if items.length < 2 then throw (.record (.shortLineSession items.length))
  let some id ← slot? Json.nat32? items[0]? | throw (.record .lineSessionWithoutId)
  let reading ← readingSlot? items[1]?
  let missing ← slot? (Json.list? BranchArm.ofJson?) items[2]?
  let partials ← slot? (Json.list? ColumnRange.ofJson?) items[3]?
  let complexity ← slot? Complexity.ofJson? items[4]?
  return { id, reading, missing, partials, complexity }

def ofJson? (j : Json) : Option LineSession := j.array?.bind fun items => (ofItems? items).toOption

end LineSession

namespace Datapoint

def toJson (d : Datapoint) : Json :=
  .array [.nat d.session, d.reading.toJson, .ofOption .string d.kind, .ofList .nat d.labels]

def ofItems? (items : List Json) : Result Datapoint := do
  let some session ← slot? Json.nat32? items[0]? | throw (.record .datapointWithoutId)
  let reading ← readingSlot? items[1]?
  let kind ← slot? Json.string? items[2]?
  let labels ← slot? (Json.list? Json.nat32?) items[3]?
  return { session, reading, kind, labels := labels.getD [] }

def ofJson? (j : Json) : Option Datapoint := j.array?.bind fun items => (ofItems? items).toOption

/-- What datapoints are sorted by: session, text of the reading, kind, labels. -/
def sortKey (d : Datapoint) : Nat × String × String × List Nat :=
  (d.session, d.reading.text, d.kind.getD "", d.labels)

/-- The order of datapoints on a line. -/
def order (a b : Datapoint) : Ordering :=
  let (session, text, kind, labels) := a.sortKey
  let (session', text', kind', labels') := b.sortKey
  (compare session session').then <|
  (compare text text').then <|
  (compare kind kind').then <|
  compare labels labels'

end Datapoint

namespace Line

def toJson (l : Line) : Json :=
  .array [
    l.reading.toJson,
    .ofOption (fun k => .string k.letter) l.kind,
    .ofList LineSession.toJson l.sessions,
    l.messages.getD .null,
    .ofOption Complexity.toJson l.complexity,
    .ofOption (.ofList Datapoint.toJson) l.datapoints]

def ofItems? (items : List Json) : Result Line := do
  if items.isEmpty then throw (.record .emptyLine)
  let reading ← readingSlot? items[0]?
  let kind ← slot? LineKind.ofJson? items[1]?
  let sessions ← slot? (Json.list? LineSession.ofJson?) items[2]?
  let messages ← slot? some items[3]?
  let complexity ← slot? Complexity.ofJson? items[4]?
  let datapoints ← slot? (Json.list? Datapoint.ofJson?) items[5]?
  return { reading, kind, sessions := sessions.getD [], messages, complexity, datapoints }

def ofJson? (j : Json) : Option Line := j.array?.bind fun items => (ofItems? items).toOption

def text (l : Line) : String := l.toJson.render

def ofText? (cs : List Char) : Option Line := (Json.parse? cs).bind fun j => ofJson? j.normal

end Line

end CoverageLedger
