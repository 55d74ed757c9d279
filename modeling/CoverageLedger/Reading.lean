import CoverageLedger.Error
import CoverageLedger.Decimal.Reader
import CoverageLedger.Text.Blank
import CoverageLedger.Text.Rows

/-!
# Coverage readings

A `Reading` is what one measurement says about one line: how often it ran, which share of its
branches was taken, which of its columns ran, or nothing. `Reading.outcome` classifies it, and
`Reading.toJson` and `Reading.ofJson?` are its loosely typed form in archives.
-/

namespace CoverageLedger

inductive Outcome where
  | hit
  | miss
  | partly
  | skipped
  deriving DecidableEq, Repr

/-- A range of columns in a line and whether it ran; an absent end is open. -/
structure ColumnRange where
  first : Option Nat
  last : Option Nat
  hit : Bool
  deriving DecidableEq, Repr, Inhabited

inductive Reading where
  | absent
  /-- The line is left out on purpose. -/
  | skipped
  | miss
  | hit (count : Binary64)
  /-- A share of the line ran, more than nothing and less than all. -/
  | fraction (share : Binary64)
  /-- A yes or no of older archives; yes means that the line ran in part. -/
  | flag (partly : Bool)
  | ratio (taken total : Nat)
  | ranges (l : List ColumnRange)
  deriving DecidableEq, Repr, Inhabited

namespace Reading

/-- The reading of a raw number. -/
def ofNumber (x : Binary64) : Reading :=
  if x.isNegative then .skipped
  else if x.isZero then .miss
  else if x.lt .one then .fraction x
  else .hit x

/-- The reading of an execution count. -/
def ofCount (n : Nat) : Reading := ofNumber (.ofNat n)

/-- The number that a reading of executions stands for. -/
def number? : Reading → Option Binary64
  | .miss => some .zero
  | .hit x | .fraction x => some x
  | _ => none

def isRatio : Reading → Bool
  | .ratio .. => true
  | _ => false

def isRanges : Reading → Bool
  | .ranges _ => true
  | _ => false

/-- Whether a reading counts as yes where a yes or no is asked for. -/
def truthy : Reading → Bool
  | .absent | .miss => false
  | .flag b => b
  | .ranges l => !l.isEmpty
  | .hit _ | .fraction _ | .skipped | .ratio .. => true

/-- The ratio that column ranges amount to: how many of them ran. -/
def ratioOfRanges (l : List ColumnRange) : Reading := .ratio (l.countP (·.hit)) l.length

/-- Column ranges as a ratio; any other reading as it is. -/
def rangesAsRatio : Reading → Reading
  | .ranges l => ratioOfRanges l
  | r => r

/-- How a ratio counts. -/
def ratioOutcome (taken total : Nat) : Outcome :=
  if taken = total then .hit else if taken = 0 then .miss else .partly

/-- How a reading counts; nothing when it does not count at all. -/
def outcome : Reading → Option Outcome
  | .absent => none
  | .skipped => some .skipped
  | .miss | .flag false => some .miss
  | .hit _ => some .hit
  | .fraction _ | .flag true => some .partly
  | .ratio taken total => some (ratioOutcome taken total)
  | .ranges l => some (ratioOutcome (l.countP (·.hit)) l.length)

/-- Equality of readings as numbers are equal: a count that is no number equals nothing. -/
def same : Reading → Reading → Bool
  | .hit x, .hit y => x.same y
  | .fraction x, .fraction y => x.same y
  | a, b => a == b

/-! ## The form in archives -/

/-- A number that is written with a point, null when it is not finite. -/
def shareToJson (x : Binary64) : Json := if x.isFinite then .float x else .null

/-- A number as JSON, written whole when it is whole and small enough to be exact. -/
def numberToJson (x : Binary64) : Json :=
  match x.toInt? with
  | some i => if i.natAbs < 0x20000000000000 then .int i else shareToJson x
  | none => shareToJson x

def ratioText (taken total : Nat) : String := toString taken ++ "/" ++ toString total

end Reading

namespace ColumnRange

def toJson (r : ColumnRange) : Json :=
  .array [.ofOption .nat r.first, .ofOption .nat r.last, .nat r.hit.toNat]

/-- The column that ends a range: a whole number in its 32 low bits, anything else is open. -/
def boundOfJson (j : Json) : Option Nat := j.nat?.map (· % Text.word32)

end ColumnRange

namespace Reading

def toJson : Reading → Json
  | .absent => .null
  | .skipped => .int (-1)
  | .miss => .int 0
  | .hit x => numberToJson x
  | .fraction x => shareToJson x
  | .flag b => .bool b
  | .ratio taken total => .string (ratioText taken total)
  | .ranges l => .array (l.map ColumnRange.toJson)

/-- A reading given as text: a ratio with blanks around its numbers, or a number with blanks around
it. -/
def ofText? (s : String) : Except RecordFault Reading :=
  let found : Option Reading :=
    match Text.splitOnce '/' s.toList with
    | some (taken, total) => do
      let taken ← Text.nat32? (Text.trim taken)
      let total ← Text.nat32? (Text.trim total)
      return .ratio taken total
    | none => (Decimal.read? (Text.trim s.toList)).map ofNumber
  match found with
  | some r => .ok r
  | none => .error (.unknownReading s)

mutual

def ofJson? : Json → Except RecordFault Reading
  | .null => .ok .absent
  | .bool b => .ok (.flag b)
  | .int i => .ok (ofNumber (.ofInt i))
  | .float x => .ok (ofNumber x)
  | .string s => ofText? s
  | .array items => (rangesOfItems? items).map .ranges
  | .object _ => .error .readingIsObject

def rangesOfItems? : List Json → Except RecordFault (List ColumnRange)
  | [] => .ok []
  | .array parts :: rest => do
    let range ← rangeOfParts? parts
    let others ← rangesOfItems? rest
    return range :: others
  | other :: _ => .error (.notARange other.normal)

/-- Read one range: two bounds, and any reading that says whether it ran. -/
def rangeOfParts? : List Json → Except RecordFault ColumnRange
  | first :: last :: reached :: _ => do
    let reading ← ofJson? reached
    return ⟨ColumnRange.boundOfJson first, ColumnRange.boundOfJson last, reading.truthy⟩
  | short => .error (.shortRange short.length)

end

def text : Reading → String
  | .ratio taken total => ratioText taken total
  | r => r.toJson.render

end Reading

def ColumnRange.ofJson? : Json → Option ColumnRange
  | .array parts => (Reading.rangeOfParts? parts).toOption
  | _ => none

end CoverageLedger
