import CoverageLedger.Calendar
import CoverageLedger.Totals

/-!
# Sessions

A session is one upload's contribution to a report. The manifest stores it under its id, which is no
part of the record itself.

`SessionTotals` are the totals of one file by session. They are written as an object under the ids
with a `meta` field, and older lists with a place for each id are read as well.
-/

namespace CoverageLedger

inductive SessionKind where
  | uploaded
  | carriedForward
  deriving DecidableEq, Repr, Inhabited

def SessionKind.name : SessionKind → String
  | .uploaded => "uploaded"
  | .carriedForward => "carriedforward"

def SessionKind.ofJson? (j : Json) : Option SessionKind :=
  match j.caseName? with
  | some "uploaded" => some .uploaded
  | some "carriedforward" => some .carriedForward
  | _ => none

/-- One upload's contribution to a report. Its id is no field of its own: it always equals the key
under which the report holds it, which whatever stores a session sets (`Report.addSession`,
`Report.addSessionWithId`, `Report.changeSession` and the reader of manifests). -/
structure Session where
  totals : Option Totals := none
  /-- When it was uploaded, in seconds since the start of 1970. -/
  time : Option Int := none
  archive : Option String := none
  flags : List String := []
  provider : Option String := none
  build : Option String := none
  name : Option String := none
  job : Option String := none
  url : Option String := none
  state : Option String := none
  env : Option Json := none
  kind : SessionKind := .uploaded
  extras : Table String Json := ∅
  deriving Inhabited

namespace Session

def timestamp? (s : Session) : Option Instant := s.time.bind Instant.ofSeconds?

/-- Whether a session carries any of some flags. -/
def hasAnyFlag (s : Session) (flags : List String) : Bool := flags.any fun f => s.flags.contains f

/-! ## The stored form -/

def toJson (s : Session) : Json :=
  .object [
    ("t", .ofOption Totals.toJson s.totals),
    ("d", .ofOption .int s.time),
    ("a", .ofOption .string s.archive),
    ("f", .ofList .string s.flags),
    ("c", .ofOption .string s.provider),
    ("n", .ofOption .string s.build),
    ("N", .ofOption .string s.name),
    ("j", .ofOption .string s.job),
    ("u", .ofOption .string s.url),
    ("p", .ofOption .string s.state),
    ("e", s.env.getD .null),
    ("st", .string s.kind.name),
    ("se", .ofTable s.extras)]

/-- A text; any other value is taken by its own text. -/
def textOfJson : Json → Option String
  | .null => none
  | .string s => some s
  | j => some j.normal.render

/-- A time: a number of seconds, as text or with a fraction too, or a date and time. -/
def timeOfJson : Json → Option Int
  | .string s => (Text.int64? s.toList).or ((Instant.ofStrictText? s.toList).map (·.seconds))
  | j => j.int64?.or (j.double?.map Binary64.toInt64)

/-- The names of the fields of a session record, in their order. -/
def fieldNames : List String := ["t", "d", "a", "f", "c", "n", "N", "j", "u", "p", "e", "st", "se"]

/-- The totals in a session record. -/
def totalsOfJson? (j : Json) : Option Totals := (Totals.ofJson? j).toOption

def ofJson? (j : Json) : Option Session := do
  let fields ← j.record? fieldNames
  let field (i : Nat) : Json := ((fields[i]?).join).getD .null
  return {
    totals := ← Json.optional? totalsOfJson? (field 0)
    time := timeOfJson (field 1)
    archive := ← Json.optional? Json.string? (field 2)
    flags := (← Json.optional? (Json.list? Json.string?) (field 3)).getD []
    provider := ← Json.optional? Json.string? (field 4)
    build := textOfJson (field 5)
    name := ← Json.optional? Json.string? (field 6)
    job := textOfJson (field 7)
    url := ← Json.optional? Json.string? (field 8)
    state := ← Json.optional? Json.string? (field 9)
    env := ← Json.optional? (fun j => some j.normal) (field 10)
    kind := (← Json.optional? SessionKind.ofJson? (field 11)).getD .uploaded
    extras := (← Json.optional? (Json.table? fun j => some j.normal) (field 12)).getD ∅ }

/-- What is read of a session record. -/
def form : Json.Form := .ofNames fieldNames

def ofText? (s : String) : Option Session := (Json.parseAs? form s.toList).bind ofJson?

end Session

/-! ## Totals by session -/

/-- The totals of one file by session. `realLength` is above every id that was ever stored. -/
structure SessionTotals where
  realLength : Nat := 0
  byId : Table Nat Totals := ∅
  deriving Inhabited

namespace SessionTotals

def get? (s : SessionTotals) (id : Nat) : Option Totals := s.byId.get? id

def ids (s : SessionTotals) : List Nat := s.byId.keys

def insert (s : SessionTotals) (id : Nat) (t : Totals) : SessionTotals :=
  { realLength := max s.realLength (min (id + 1) (Text.word32 - 1)), byId := s.byId.insert id t }

def erase (s : SessionTotals) (id : Nat) : SessionTotals := { s with byId := s.byId.erase id }

/-- Move the totals of one id to another, over what was there. -/
def changeId (s : SessionTotals) (old new : Nat) : SessionTotals :=
  match s.get? old with
  | some t => (s.erase old).insert new t
  | none => s

def toJson (s : SessionTotals) : Json :=
  .ofTable <| Table.ofList <|
    ("meta", Json.object [("real_length", .nat s.realLength)]) ::
      s.byId.entries.map fun (id, t) => (toString id, t.toJson)

/-- Read the totals of a list, each place standing for an id; null is an id without totals. -/
def ofItems? (id : Nat) (s : SessionTotals) : List Json → Except RecordFault SessionTotals
  | [] => .ok s
  | j :: rest =>
    if j.isNull then ofItems? (id + 1) s rest
    else do
      let t ← Totals.ofJson? j
      ofItems? (id + 1) { s with byId := s.byId.insert id t } rest

/-- Read the totals of an object, each under its id; null is an id without totals. -/
def ofFields? (s : SessionTotals) : List (String × Json) → Except RecordFault SessionTotals
  | [] => .ok s
  | (key, j) :: rest =>
    if j.isNull then ofFields? s rest
    else
      match Text.nat32? key.toList with
      | none => .error (.sessionTotalsKey key)
      | some id => do
        let t ← Totals.ofJson? j
        ofFields? (s.insert id t) rest

/-- The length that the `meta` field of an object declares. -/
def declaredLength? (info : Option Json) : Option Nat :=
  info.bind fun m => ((m.field? "real_length").or (m.field? "session_count")).bind Json.nat?

def ofJson? : Json → Except RecordFault SessionTotals
  | .null => .ok {}
  | .array items => ofItems? 0 { realLength := items.length } items
  | .object fields => do
    let s ← ofFields? {} (fields.filter fun f => f.1 != "meta")
    match declaredLength? ((Json.object fields).field? "meta") with
    | some n => return { s with realLength := max s.realLength (n % Text.word32) }
    | none => return s
  | j => .error (.sessionTotalsShape j)

end SessionTotals

end CoverageLedger
