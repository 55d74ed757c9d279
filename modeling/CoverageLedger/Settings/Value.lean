import CoverageLedger.Calendar
import CoverageLedger.Decimal.Reader

/-!
# Values of settings

A `SettingValue` comes from a file or from a variable. A setting takes values of other types than
its own where they make sense: a switch may be a number or a word, and a rate a switch.
-/

namespace CoverageLedger

/-- A value that is given to a setting. Lists, tables and what they hold are not told apart. -/
inductive SettingValue where
  | text (s : String)
  | int (i : Int)
  | float (x : Binary64)
  | bool (b : Bool)
  | compound
  deriving DecidableEq, Repr

namespace SettingValue

def onWords : List String := ["true", "on", "yes"]

def offWords : List String := ["false", "off", "no"]

def lower (s : String) : String := String.ofList (s.toList.map Char.toLower)

def rate? : SettingValue → Option Binary64
  | .int i => some (.ofInt i)
  | .float x => some x
  | .bool b => some (if b then .one else .zero)
  | .text s =>
    if onWords.contains (lower s) then some .one
    else if offWords.contains (lower s) then some .zero
    else Decimal.read? s.toList
  | .compound => none

def switch? : SettingValue → Option Bool
  | .bool b => some b
  | .int i => some (i != 0)
  | .float x => some (!x.same .zero)
  | .text s =>
    if ("1" :: onWords).contains (lower s) then some true
    else if ("0" :: offWords).contains (lower s) then some false
    else none
  | .compound => none

def moment? : SettingValue → Option Instant
  | .text s => Instant.ofLooseText? s.toList
  | _ => none

/-- The value of an environment variable: a switch, a number, or else a text. -/
def ofVariable (s : String) : SettingValue :=
  if lower s = "true" then .bool true
  else if lower s = "false" then .bool false
  else
    match Text.int64? s.toList, Decimal.read? s.toList with
    | some i, _ => .int i
    | none, some x => .float x
    | none, none => .text s

end SettingValue

end CoverageLedger
