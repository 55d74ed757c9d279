import CoverageLedger.Pattern.Class
import CoverageLedger.Pattern.Footprint

/-!
# Reading patterns

`Pattern.ofText?` reads the text of a pattern, and puts the pattern together in its simplest form. A
text is refused when it is malformed, when its parts are nested too deep, and when an automaton for
the pattern would be too large.
-/

namespace CoverageLedger.Pattern

/-- A part of a pattern, and how deep its own parts are nested. -/
structure Node where
  pattern : Pattern
  depth : Nat := 0

/-- A pattern being read. -/
structure ReadState where
  flags : Flags := {}
  groups : Nat := 0
  names : List (List Char) := []
  rest : List Char

def deepestNesting : Nat := 250

/-! ## Flags and groups -/

def Flags.switch? (flags : Flags) (letter : Char) (on : Bool) : Option Flags :=
  match letter with
  | 'i' => some { flags with ignoreCase := on }
  | 'm' => some { flags with multiLine := on }
  | 's' => some { flags with dotMatchesNewline := on }
  | 'U' => some { flags with swapGreed := on }
  | 'u' => some { flags with unicode := on }
  | 'R' => some { flags with returns := on }
  | 'x' => some { flags with verbose := on }
  | _ => none

/-- The flags of a group, each at most once, up to the colon or bracket after them. A dash switches
the flags after it off, and one must follow. -/
def flagLetters? (flags : Flags) (seen : List Char) : List Char → Option (Flags × List Char)
  | [] => none
  | c :: cs =>
    if c = ':' ∨ (c = ')' ∧ !seen.isEmpty) then
      if seen.head? = some '-' then none else some (flags, c :: cs)
    else if seen.contains c then none
    else if c = '-' then flagLetters? flags (c :: seen) cs
    else do flagLetters? (← flags.switch? c (!seen.contains '-')) (c :: seen) cs

/-- Whether a character can be part of a group's name. Names start with a letter or an underscore.
-/
def inGroupName (first : Bool) (c : Char) : Bool :=
  c == '_' ||
    if first then Text.letters.contains c
    else Text.lettersAndNumerals.contains c || c == '.' || c == '[' || c == ']'

/-- Whether characters form the name of a group. -/
def isGroupName : List Char → Bool
  | [] => false
  | c :: cs => inGroupName true c && cs.all (inGroupName false)

/-- The start of a group, after its bracket. -/
inductive GroupStart where
  /-- A group with a number. -/
  | numbered (number : Nat) (s : ReadState)
  /-- A group without a number, in which flags are in force. -/
  | unnumbered (s : ReadState)
  /-- Flags from here on. -/
  | flags (s : ReadState)

def numberedGroup (s : ReadState) (rest : List Char) : GroupStart :=
  .numbered (s.groups + 1) { s with groups := s.groups + 1, rest }

/-- The start of a group that has a name, after the sign before its name. -/
def groupName? (s : ReadState) (cs : List Char) : Option GroupStart :=
  let name := cs.takeWhile (· != '>')
  match cs.dropWhile (· != '>') with
  | '>' :: rest =>
    if isGroupName name ∧ !s.names.contains name then
      some (numberedGroup { s with names := name :: s.names } rest)
    else none
  | _ => none

def groupStart? (s : ReadState) (cs : List Char) : Option GroupStart :=
  match skip s.flags cs with
  | '?' :: 'P' :: '<' :: rest => groupName? s rest
  | '?' :: '<' :: rest => groupName? s rest
  | '?' :: rest =>
    match flagLetters? s.flags [] rest with
    | some (flags, ':' :: rest) => some (.unnumbered { s with flags, rest })
    | some (flags, _ :: rest) => some (.flags { s with flags, rest })
    | _ => none
  | rest => some (numberedGroup s rest)

/-! ## Repetitions -/

/-- How often a part is repeated, and what follows. -/
structure Repetition where
  least : Nat
  most : Option Nat
  lazy : Bool
  rest : List Char

/-- A repetition, before the mark that makes it take few before many. -/
def repetition (flags : Flags) (least : Nat) (most : Option Nat) : List Char → Repetition
  | '?' :: rest => { least, most, lazy := !flags.swapGreed, rest }
  | rest => { least, most, lazy := flags.swapGreed, rest }

/-- A number of repetitions. -/
def repetitions? (flags : Flags) (cs : List Char) : Option (Nat × List Char) := do
  let cs := Text.trimStart cs
  let (digits, rest) := takeSkipping flags (fun c => (Text.digit? c).isSome) cs.length cs
  let n ← Text.nat32? digits
  return (n, skip flags (Text.trimStart rest))

/-- A repetition in braces, after the first of them. -/
def bounds? (flags : Flags) (cs : List Char) : Option Repetition := do
  let (least, rest) ← repetitions? flags (skip flags cs)
  match rest with
  | '}' :: rest => return repetition flags least (some least) (skip flags rest)
  | ',' :: rest =>
    match skip flags rest with
    | '}' :: rest => return repetition flags least none (skip flags rest)
    | rest => do
      let (most, rest) ← repetitions? flags rest
      match rest with
      | '}' :: rest =>
        if least ≤ most then return repetition flags least (some most) (skip flags rest) else none
      | _ => none
  | _ => none

/-- A repetition at the start of a text: nothing when there is none, and the repetition when it is
well formed. -/
def repetition? (flags : Flags) : List Char → Option (Option Repetition)
  | '?' :: rest => some (some (repetition flags 0 (some 1) rest))
  | '*' :: rest => some (some (repetition flags 0 none rest))
  | '+' :: rest => some (some (repetition flags 1 none rest))
  | '{' :: rest => some (bounds? flags rest)
  | _ => none

/-! ## Single parts -/

/-- A character, or any character that differs from it in case only when the case is ignored. -/
def character (flags : Flags) (c : Char) : Pattern := ofSet (withCase flags (.single c))

/-- Any character but those that end a line. -/
def dot? (flags : Flags) : Option Pattern :=
  if !flags.unicode then none
  else
    let lineEnds : CharSet :=
      if flags.dotMatchesNewline then .none
      else if flags.returns then (CharSet.single '\n').union (.single '\r')
      else .single '\n'
    some (.set lineEnds.complement)

/-- A part that is neither a group nor a repetition. -/
def part? (flags : Flags) : List Char → Option (Node × List Char)
  | [] => none
  | '[' :: rest => (class? flags (2 * rest.length + 2) rest).map fun (item, rest) =>
    ({ pattern := ofSet item.chars, depth := item.depth }, rest)
  | '\\' :: rest => (escape? flags rest).map fun (e, rest) =>
    ({ pattern := match e with
        | .char c => character flags c
        | .set s => ofSet s
        | .anchor a => .anchor a }, rest)
  | '.' :: rest => (dot? flags).map fun p => ({ pattern := p }, rest)
  | '^' :: rest =>
    let a : Anchor := if flags.multiLine then .lineStart flags.returns else .textStart
    some ({ pattern := .anchor a }, rest)
  | '$' :: rest =>
    let a : Anchor := if flags.multiLine then .lineEnd flags.returns else .textEnd
    some ({ pattern := .anchor a }, rest)
  | c :: rest => some ({ pattern := character flags c }, rest)

/-! ## Whole patterns -/

/-- Parts nest one level deeper when there are two or more. -/
def deeper (depths : List Nat) : Nat :=
  let deepest := depths.foldl max 0
  if depths.length ≤ 1 then deepest else deepest + 1

/-- The sequence of parts, given from the last to the first. Flags among them count as parts. -/
def sequence (parts : List (Option Node)) : Node :=
  { pattern := ofParts (parts.reverse.filterMap id |>.map (·.pattern))
    depth := deeper (parts.map fun n => (n.map (·.depth)).getD 0) }

def alternatives (nodes : List Node) : Node :=
  { pattern := ofChoices (nodes.reverse.map (·.pattern)), depth := deeper (nodes.map (·.depth)) }

/-- Read parts up to the bracket that closes their group, or the end. `parts` are the parts of the
last alternative so far, and `earlier` the alternatives before it, both from the last to the first.
-/
def parts? : Nat → ReadState → List (Option Node) → List Node → Option (Node × ReadState)
  | 0, _, _, _ => none
  | fuel + 1, s, parts, earlier =>
    let cs := skip s.flags s.rest
    let close (rest : List Char) := (alternatives (sequence parts :: earlier), { s with rest })
    match cs with
    | [] => some (close [])
    | ')' :: _ => some (close cs)
    | '|' :: rest => parts? fuel { s with rest } [] (sequence parts :: earlier)
    | '(' :: rest =>
      let group (wrap : Pattern → Pattern) (inner : ReadState) := do
        let (node, after) ← parts? fuel inner [] []
        match after.rest with
        | ')' :: rest =>
          let node : Node := { pattern := wrap node.pattern, depth := node.depth + 1 }
          -- flags set inside a group end with it, numbers and names do not
          parts? fuel { after with flags := s.flags, rest } (some node :: parts) earlier
        | _ => none
      match groupStart? s rest with
      | none => none
      | some (.flags s) => parts? fuel s (none :: parts) earlier
      | some (.numbered number inner) => group (.group number) inner
      | some (.unnumbered inner) => group id inner
    | _ =>
      match repetition? s.flags cs, parts with
      | some (some r), some node :: parts =>
        let node : Node :=
          { pattern := ofRepetition node.pattern r.least r.most r.lazy, depth := node.depth + 1 }
        parts? fuel { s with rest := r.rest } (some node :: parts) earlier
      | some _, _ => none
      | none, parts => do
        let (node, rest) ← part? s.flags cs
        parts? fuel { s with rest } (some node :: parts) earlier

/-- Read the text of a pattern. -/
def ofText? (text : String) : Option Pattern := do
  let cs := text.toList
  let (node, s) ← parts? (cs.length + 1) { rest := cs } [] []
  if s.rest.isEmpty ∧ node.depth ≤ deepestNesting ∧ Footprint.fits node.pattern then node.pattern
  else none

end CoverageLedger.Pattern
