import CoverageLedger.Decimal.Binary64
import CoverageLedger.Table
import CoverageLedger.Text.Numeral

/-!
# JSON values

Archives and manifests are JSON, and some of it is loosely typed, so the value itself is a type of
the library. An object keeps its fields as they were written, repetitions included; `Json.normal`
puts the fields of every object in key order and keeps the last of equal keys.
-/

namespace CoverageLedger

/-- A JSON value. Whole numbers inside the 64-bit ranges are kept apart from all others. -/
inductive Json where
  | null
  | bool (b : Bool)
  | int (i : Int)
  | float (x : Binary64)
  | string (s : String)
  | array (items : List Json)
  | object (fields : List (String × Json))
  deriving Repr, Inhabited

namespace Json

/-! ## Normal form -/

mutual

/-- Every object's fields in key order, the last of equal keys kept. -/
def normal : Json → Json
  | .array items => .array (normalItems items)
  | .object fields => .object (Table.ofList (normalFields fields)).entries
  | j => j

/-- The normal forms of a list of values. -/
def normalItems : List Json → List Json
  | [] => []
  | j :: rest => j.normal :: normalItems rest

/-- The normal forms of the values of fields. -/
def normalFields : List (String × Json) → List (String × Json)
  | [] => []
  | (k, j) :: rest => (k, j.normal) :: normalFields rest

end

def ofTable (t : Table String Json) : Json := .object t.entries

def nat (n : Nat) : Json := .int n

/-- A value that may be absent, absence being written as null. -/
def ofOption {α : Type} (f : α → Json) : Option α → Json
  | none => .null
  | some a => f a

def ofList {α : Type} (f : α → Json) (l : List α) : Json := .array (l.map f)

/-! ## Looking inside -/

def isNull : Json → Bool
  | .null => true
  | _ => false

def nat? : Json → Option Nat
  | .int (.ofNat n) => some n
  | _ => none

def int64? : Json → Option Int
  | .int i => if i < 0x8000000000000000 then some i else none
  | _ => none

def double? : Json → Option Binary64
  | .int i => some (.ofInt i)
  | .float x => some x
  | _ => none

def nat32? (j : Json) : Option Nat := j.nat?.filter (· < Text.word32)

def bool? : Json → Option Bool
  | .bool b => some b
  | _ => none

def string? : Json → Option String
  | .string s => some s
  | _ => none

def array? : Json → Option (List Json)
  | .array items => some items
  | _ => none

/-- The last field of a name in an object. -/
def field? (name : String) : Json → Option Json
  | .object fields => (fields.reverse.find? fun f => f.1 == name).map Prod.snd
  | _ => none

/-! ## Reading records

A reader of a kind of value is a function to `Option`; the readers below build larger ones.
-/

/-- Null is absence. -/
def optional? {α : Type} (read : Json → Option α) : Json → Option (Option α)
  | .null => some none
  | j => (read j).map some

def list? {α : Type} (read : Json → Option α) (j : Json) : Option (List α) :=
  j.array?.bind fun items => items.mapM read

/-- Every field of an object under its name; the last of equal names stays. -/
def table? {α : Type} (read : Json → Option α) : Json → Option (Table String α)
  | .object fields =>
    (fields.mapM fun f => (read f.2).map fun v => (f.1, v)).map Table.ofList
  | _ => none

/-- A key that is a natural number of 32 bits in its only written form. -/
def numericKey? (key : String) : Option Nat :=
  match key.toList with
  | ['0'] => some 0
  | '0' :: _ => none
  | cs => (Text.digits? cs).filter (· < Text.word32)

/-- Every field of an object under its number; the last of equal numbers stays. -/
def numberedTable? {α : Type} (read : Json → Option α) : Json → Option (Table Nat α)
  | .object fields =>
    (fields.mapM fun f => (numericKey? f.1).bind fun n => (read f.2).map fun v => (n, v)).map
      Table.ofList
  | _ => none

/-- The fields of a record in the order of their names, absent where they are not given. A record
is written as an object, where each name stands at most once and other names are passed over, or as
an array of the first few fields. -/
def record? (names : List String) : Json → Option (List (Option Json))
  | .object fields =>
    names.mapM fun name =>
      match fields.filter fun f => f.1 == name with
      | [] => some none
      | [f] => some (some f.2)
      | _ => none
  | .array items =>
    if items.length ≤ names.length then
      some (items.map some ++ List.replicate (names.length - items.length) none)
    else none
  | _ => none

/-- The name of one of a fixed set of cases: a string, or an object with that one key and null. -/
def caseName? : Json → Option String
  | .string s => some s
  | .object [(s, .null)] => some s
  | _ => none

end Json

end CoverageLedger
