import CoverageLedger.Settings.Toml
import CoverageLedger.Text.Rows
import CoverageLedger.Text.Utf8
import CoverageLedger.View

/-!
# Settings

Settings come from a file and from environment variables, which win over the file. Both name them by
keys, in any case. A key may also lead into a setting, as if that were a table or a list, and then
gives no value that makes sense.
-/

namespace CoverageLedger

structure Settings where
  /-- The share of reports that an analyzer watches. -/
  sampleRate : Binary64 := .zero
  useSessionTotals : Bool := false
  cutover : Option Instant := none

namespace Settings

/-- The start of every variable's name. -/
def variablePrefix : List Char := "covstore_".toList

def defaultFile : String := "covstore.toml"

/-- Whether a character can be part of a name in a key. -/
def inKeyName (c : Char) : Bool := c.isAlphanum || c == '_' || c == '-' || c == ' '

/-- The rest of a key after an index and the bracket that closes it. -/
def afterIndex? (cs : List Char) : Option (List Char) := do
  let cs := Toml.skipSpaces cs
  let (sign, cs) := match cs with
    | '-' :: rest => (['-'], rest)
    | _ => ([], cs)
  let _ ← Text.int64? (sign ++ cs.takeWhile Char.isDigit)
  Instant.after? ']' (Toml.skipSpaces (cs.dropWhile Char.isDigit))

/-- Whether the rest of a key leads further, by names after points and indices in brackets. -/
def leadsOn : Nat → List Char → Bool
  | 0, _ => false
  | fuel + 1, cs =>
    match cs with
    | [] => true
    | '.' :: rest =>
      !(rest.takeWhile inKeyName).isEmpty && leadsOn fuel (rest.dropWhile inKeyName)
    | '[' :: rest => (afterIndex? rest).any (leadsOn fuel)
    | _ => false

/-- The setting that a key names, and the value that the setting gets. A key that is malformed is a
name as a whole. -/
def entry (key : String) (v : SettingValue) : String × SettingValue :=
  let key := (SettingValue.lower key).toList
  let name := key.takeWhile inKeyName
  match key.dropWhile inKeyName with
  | [] => (String.ofList key, v)
  | rest =>
    if !name.isEmpty && leadsOn (rest.length + 1) rest then (String.ofList name, .compound)
    else (String.ofList key, v)

/-- What a variable sets, if it is one of the program's variables. -/
def variableEntry? (v : String × String) : Option (String × SettingValue) :=
  (Text.afterStart variablePrefix (SettingValue.lower v.1).toList).map fun key =>
    entry (String.ofList key) (.ofVariable v.2)

/-- A setting that may be missing, but has to make sense. -/
def setting? {α : Type} (read : SettingValue → Option α) (missing : α) :
    Option SettingValue → Option α
  | some v => read v
  | none => some missing

def ofValues? (value? : String → Option SettingValue) : Option Settings := do
  return {
    sampleRate := ← setting? SettingValue.rate? .zero (value? "analyzer_sample_rate")
    useSessionTotals := ← setting? SettingValue.switch? false (value? "use_session_totals")
    cutover := ← setting? (fun v => v.moment?.map some) none (value? "session_totals_cutover") }

/-- What follows the last point of a file's name, unless the point starts it. -/
def fileExtension? (path : String) : Option String :=
  let name := (Text.splitAt '/' path.toList).getLast?.getD []
  match (Text.splitAt '.' name).reverse with
  | last :: stem :: others =>
    if stem.isEmpty && others.isEmpty then none else some (String.ofList last)
  | _ => none

/-- The document in a file: the file itself, which must be named as a settings file, or the one with
such an ending. -/
def document? (file? : String → Option ByteArray) (path : String) : Option Toml.Document := do
  let bytes ←
    match file? path with
    | some bytes => if fileExtension? path = some "toml" then some bytes else none
    | none => file? (path ++ ".toml")
  Toml.read? (← (Text.decodeUtf8 bytes).toOption)

/-- The document with settings: of a named file, which must exist, or of the default one if it
exists. -/
def chosenDocument? (file? : String → Option ByteArray) : Option String → Option Toml.Document
  | some path => document? file? path
  | none => if (file? defaultFile).isSome then document? file? defaultFile else some {}

def load (file? : String → Option ByteArray) (path : Option String)
    (environment : List (String × String)) : Result Settings :=
  let settings := (chosenDocument? file? path).bind fun d =>
    let fromFile := d.root.map fun (key, v) => entry key v
    let fromVariables := environment.reverse.filterMap variableEntry?
    -- variables win over the file
    ofValues? fun name => (fromVariables ++ fromFile).lookup name
  match settings with
  | some s => .ok s
  | none => .error .settings

/-- When views may take their totals from a session. -/
def viewOptions (s : Settings) : ViewOptions :=
  { useSessionTotals := s.useSessionTotals, cutover := s.cutover }

end Settings

end CoverageLedger
