import CoverageLedger.Settings.Toml.Value

/-!
# Settings files

A settings file is a TOML document. `Toml.read?` checks a whole document and gives the values at its
root; tables are known by name only.
-/

namespace CoverageLedger.Toml

/-- What a name was defined as. -/
inductive Definition where
  | value (v : SettingValue)
  /-- A table that dotted names made. -/
  | dotted
  /-- A table that stands above one with a header. -/
  | implied
  /-- A table with a header. -/
  | header
  /-- A list of tables. What is defined below it belongs to its last table. -/
  | tables
  deriving DecidableEq, Repr

/-- The names defined so far, the last one first, and the table that rows now belong to. -/
structure Document where
  defined : List (Path × Definition) := []
  current : Path := []

namespace Document

def get? (d : Document) (path : Path) : Option Definition :=
  (d.defined.find? fun e => e.1 == path).map Prod.snd

def define (d : Document) (path : Path) (definition : Definition) : Document :=
  { d with defined := (path, definition) :: d.defined.filter fun e => e.1 != path }

/-- The names above a dotted name, from the root down, that are longer than the table it is in. -/
def above (base path : Path) : List Path :=
  (List.range (path.length - 1)).map fun n => base ++ path.take (n + 1)

/-- Go down to the table that a dotted name in the current table belongs to. Tables with a header of
their own are closed. -/
def descend? (d : Document) (path : Path) : Option Document :=
  (above d.current path).foldlM (fun d p =>
    match d.get? p with
    | none => some (d.define p .dotted)
    | some .dotted | some .implied | some .tables => some d
    | some _ => none) d

/-- Define a value in the current table. Dotted names add only to tables that dotted names made. -/
def addValue? (d : Document) (path : Path) (v : SettingValue) : Option Document := do
  let d ← d.descend? path
  let isOpen : Bool := match (above d.current path).getLast? with
    | some p => d.get? p == some .dotted
    | none => true
  let target := d.current ++ path
  if isOpen && (d.get? target).isNone then some (d.define target (.value v)) else none

/-- Define the tables above one with a header. -/
def imply? (d : Document) (path : Path) : Option Document :=
  (above [] path).foldlM (fun d p =>
    match d.get? p with
    | none => some (d.define p .implied)
    | some (.value _) => none
    | some _ => some d) d

/-- Go on with a table of its own header. -/
def openTable? (d : Document) (path : Path) : Option Document := do
  let d ← d.imply? path
  match d.get? path with
  | none | some .implied => some { d.define path .header with current := path }
  | some _ => none

/-- Go on with another table of a list. What was defined in the table before it is no longer in the
way. -/
def openItem? (d : Document) (path : Path) : Option Document := do
  let d ← d.imply? path
  match d.get? path with
  | none | some .tables =>
    -- each item of the list starts afresh
    let others := d.defined.filter fun e => !(path.isPrefixOf e.1)
    some { defined := (path, .tables) :: others, current := path }
  | some _ => none

def row? (d : Document) (cs : List Char) : Option (Document × List Char) :=
  match cs with
  | '[' :: '[' :: rest => do
    let (path, rest) ← path? rest
    let ']' :: ']' :: rest := rest | none
    return (← d.openItem? path, ← endOfRow? rest)
  | '[' :: rest => do
    let (path, rest) ← path? rest
    let ']' :: rest := rest | none
    return (← d.openTable? path, ← endOfRow? rest)
  | _ => do
    let (path, rest) ← path? cs
    let '=' :: rest := rest | none
    let (v, rest) ← rowValue? (skipSpaces rest)
    return (← d.addValue? path v, ← endOfRow? rest)

def rows? : Nat → Document → List Char → Option Document
  | 0, _, _ => none
  | fuel + 1, d, cs =>
    let cs := skipSpaces cs
    if cs.isEmpty then some d
    else
      match endOfRow? cs with
      | some rest => rows? fuel d rest
      | none => do
        let (d, rest) ← d.row? cs
        rows? fuel d rest

def root (d : Document) : List (String × SettingValue) :=
  d.defined.filterMap fun
    | ([name], .value v) => some (name, v)
    | ([name], _) => some (name, .compound)
    | _ => none

end Document

/-- The mark at the start of a text that tells the order of its bytes. -/
def byteOrderMark : Char := Char.ofNat 0xFEFF

/-- Read a document. A byte order mark before it means nothing. -/
def read? (text : String) : Option Document :=
  let cs := match text.toList with
    | c :: rest => if c = byteOrderMark then rest else c :: rest
    | [] => []
  Document.rows? (cs.length + 1) {} cs

end CoverageLedger.Toml
