import CoverageLedger.Decimal.Fixed
import CoverageLedger.Line.Record

/-!
# Totals

`Totals` sums up a file, a session, a diff or a whole report. `Totals.ofLines` counts lines, and
`Totals.sum` adds the totals of files. Stored, totals are an array of thirteen places; objects with
short names and numbers written as text are read as well.
-/

namespace CoverageLedger

structure Totals where
  files : Nat := 0
  lines : Nat := 0
  hits : Nat := 0
  misses : Nat := 0
  partials : Nat := 0
  /-- The share of lines hit, in percent. -/
  coverage : Option String := none
  branches : Nat := 0
  methods : Nat := 0
  messages : Nat := 0
  sessions : Nat := 0
  complexity : Option Int := some 0
  complexityTotal : Option Int := some 0
  /-- The totals of the diff that was last applied. -/
  diff : Option Totals := none
  deriving Repr, Inhabited

/-- The share of lines hit in percent: nothing without lines, a bare 100 when all are hit, and five
places otherwise. -/
def coverageRatio (hits lines : Nat) : Option String :=
  if lines = 0 then none
  else if hits = lines then some "100"
  else
    let share := ((Binary64.ofNat hits).div (.ofNat lines)).mul (.ofNat 100)
    some (String.ofList (Decimal.fixed 5 share))

namespace Complexity

/-- The covered part of a complexity, or all of a plain one. -/
def covered : Complexity → Int
  | .total n => n
  | .pair c _ => c

/-- The total that goes with a covered part. -/
def whole : Complexity → Int
  | .total _ => 0
  | .pair _ t => t

end Complexity

namespace Totals

def addUp {α : Type} [Add α] [OfNat α 0] (l : List α) : α := l.foldr (· + ·) 0

/-- The number of lines that count in a way. -/
def countOutcome (outcome : Outcome) (lines : List Line) : Nat :=
  lines.countP fun l => l.reading.outcome == some outcome

def countKind (kind : LineKind) (lines : List Line) : Nat :=
  lines.countP fun l => l.kind == some kind

/-- The totals of lines; the numbers of files and sessions are left to the caller. -/
def ofLines (lines : List Line) : Totals :=
  let hits := countOutcome .hit lines
  let misses := countOutcome .miss lines
  let partials := countOutcome .partly lines
  let tracked := hits + misses + partials
  { lines := tracked
    hits, misses, partials
    coverage := coverageRatio hits tracked
    branches := countKind .branch lines
    methods := countKind .method lines
    messages := addUp (lines.map Line.messageCount)
    complexity := some (addUp ((lines.filterMap (·.complexity)).map Complexity.covered))
    complexityTotal := some (addUp ((lines.filterMap (·.complexity)).map Complexity.whole)) }

/-- The sum of the totals of files, of which each counts as one file. -/
def sum (items : List Totals) : Totals :=
  let lines := addUp (items.map (·.lines))
  let hits := addUp (items.map (·.hits))
  { files := items.length
    lines, hits
    misses := addUp (items.map (·.misses))
    partials := addUp (items.map (·.partials))
    coverage := coverageRatio hits lines
    branches := addUp (items.map (·.branches))
    methods := addUp (items.map (·.methods))
    messages := addUp (items.map (·.messages))
    complexity := some (addUp (items.map fun t => t.complexity.getD 0))
    complexityTotal := some (addUp (items.map fun t => t.complexityTotal.getD 0)) }

/-- Without lines there is neither coverage nor complexity. -/
def nullIfEmpty (t : Totals) : Totals :=
  if t.lines = 0 then { t with coverage := none, complexity := none, complexityTotal := none }
  else t

/-- The share of lines hit as a number, when its text is one. -/
def percent? (t : Totals) : Option Binary64 := t.coverage.bind fun s => Decimal.read? s.toList

/-! ## The stored form -/

/-- The stored form: thirteen places, a missing diff being written as zero. -/
def toJson : Totals → Json
  | ⟨files, lines, hits, misses, partials, coverage, branches, methods, messages, sessions,
      complexity, complexityTotal, diff⟩ =>
    .array [.nat files, .nat lines, .nat hits, .nat misses, .nat partials,
      .ofOption .string coverage, .nat branches, .nat methods, .nat messages, .nat sessions,
      .ofOption .int complexity,
      .ofOption .int complexityTotal,
      match diff with
      | some d => d.toJson
      | none => .nat 0]

/-- A count, which is zero where it cannot be read, and keeps 32 bits. -/
def countOfJson : Option Json → Nat
  | some (.string s) => (Text.nat32? s.toList).getD 0
  | some j => (j.nat?.getD 0) % Text.word32
  | none => 0

/-- A complexity, which is zero where its place is missing, and nothing where it is no integer. -/
def complexityOfJson : Option Json → Option Int
  | some j => j.int64?
  | none => some 0

/-- The share of lines hit: a text as it is, or the text of a number. -/
def coverageOfJson : Option Json → Option String
  | some (.string s) => some s
  | some (.int i) => some (Json.int i).render
  | some (.float x) => some (Json.float x).render
  | _ => none

/-- All places but that of the diff. -/
def ofPlaces (place : Nat → Option Json) : Totals :=
  { files := countOfJson (place 0)
    lines := countOfJson (place 1)
    hits := countOfJson (place 2)
    misses := countOfJson (place 3)
    partials := countOfJson (place 4)
    coverage := coverageOfJson (place 5)
    branches := countOfJson (place 6)
    methods := countOfJson (place 7)
    messages := countOfJson (place 8)
    sessions := countOfJson (place 9)
    complexity := complexityOfJson (place 10)
    complexityTotal := complexityOfJson (place 11) }

/-- The names of the places in the form of an object, in their order. -/
def placeNames : List String := ["f", "n", "h", "m", "p", "c", "b", "d", "M", "s", "C", "N"]

/-- A place of the form of an object; a missing one is null. -/
def namedPlace (fields : List (String × Json)) (i : Nat) : Option Json :=
  some (((placeNames[i]?).bind fun name => (Json.object fields).field? name).getD .null)

mutual

/-- The totals that an array or an object holds. -/
def ofArrayOrObject? : Json → Option Totals
  | .array items => some { ofPlaces (fun i => items[i]?) with diff := diffAt 12 items }
  | .object fields => some { ofPlaces (namedPlace fields) with diff := diffField fields }
  | _ => none

/-- The totals at a place of an array. -/
def diffAt : Nat → List Json → Option Totals
  | _, [] => none
  | 0, j :: _ => ofArrayOrObject? j
  | n + 1, _ :: rest => diffAt n rest

/-- The totals of the diff in an object. -/
def diffField : List (String × Json) → Option Totals
  | [] => none
  | (name, j) :: rest =>
    if rest.any fun f => f.1 == "diff" then diffField rest
    else if name = "diff" then ofArrayOrObject? j
    else none

end

/-- Read any stored form. -/
def ofJson? (j : Json) : Except RecordFault Totals :=
  match ofArrayOrObject? j with
  | some t => .ok t
  | none => .error (.totalsShape j)

/-- Read the text of any stored form. -/
def ofText? (s : String) : Option Totals :=
  (Json.parse? s.toList).bind ofArrayOrObject?

end Totals

end CoverageLedger
