import CoverageLedger.Pattern
import CoverageLedger.Text.Blank
import CoverageLedger.Text.Folding
import CoverageLedger.Text.Numeral

/-!
# Escapes and classes of characters

The parts of a pattern's text that stand for characters: escapes such as `\n`, `\x41` and `\w`, and
classes in brackets with ranges, nested classes and set operators. What they mean depends on the
`Flags` in force.
-/

namespace CoverageLedger.Pattern

/-- What can be switched on and off inside a pattern. -/
structure Flags where
  ignoreCase : Bool := false
  multiLine : Bool := false
  dotMatchesNewline : Bool := false
  /-- Repetitions try few before many, and many before few where they say so. -/
  swapGreed : Bool := false
  /-- Carriage returns end lines too. -/
  returns : Bool := false
  /-- Blanks and comments in the pattern's text mean nothing. -/
  verbose : Bool := false
  /-- Classes range over all characters; otherwise over the first 128. -/
  unicode : Bool := true

/-- Skip blanks, and comments from a number sign to the end of the line. -/
def skipComments (inComment : Bool) : List Char → List Char
  | [] => []
  | c :: cs =>
    if inComment then skipComments (c != '\n') cs
    else if Text.isBlank c then skipComments false cs
    else if c = '#' then skipComments true cs
    else c :: cs

/-- Skip what means nothing. -/
def skip (flags : Flags) (cs : List Char) : List Char :=
  if flags.verbose then skipComments false cs else cs

/-- Characters with a property, and what follows them; what means nothing is skipped after each. -/
def takeSkipping (flags : Flags) (p : Char → Bool) : Nat → List Char → List Char × List Char
  | _, [] => ([], [])
  | 0, cs => ([], cs)
  | fuel + 1, c :: cs =>
    if p c then
      let (taken, rest) := takeSkipping flags p fuel (skip flags cs)
      (c :: taken, rest)
    else ([], c :: cs)

/-! ## Sets of characters -/

def isAscii (c : Char) : Bool := c.toNat < 128

/-- A set and all of the first 128 characters that differ from one of its characters in case
only. -/
def withAsciiCase (s : CharSet) : CharSet :=
  s.insertAll <| (List.range 26).flatMap fun i =>
    let upper := 'A'.toNat + i
    let lower := 'a'.toNat + i
    if s.holds upper || s.holds lower then [upper, lower] else []

/-- A set and, when the case is ignored, all characters that differ from it in case only. -/
def withCase (flags : Flags) (s : CharSet) : CharSet :=
  if !flags.ignoreCase then s
  else if flags.unicode then s.withCaseVariants
  else withAsciiCase s

/-- A set or its complement. A complement needs all characters. -/
def negate? (flags : Flags) (negated : Bool) (s : CharSet) : Option CharSet :=
  if !negated then some s else if flags.unicode then some s.complement else none

def named? (name : String) : Option CharSet :=
  match name with
  | "alnum" => some (.ofRanges [(0x30, 0x39), (0x41, 0x5a), (0x61, 0x7a)])
  | "alpha" => some (.ofRanges [(0x41, 0x5a), (0x61, 0x7a)])
  | "ascii" => some (.ofRanges [(0, 0x7f)])
  | "blank" => some (.ofRanges [(9, 9), (0x20, 0x20)])
  | "cntrl" => some (.ofRanges [(0, 0x1f), (0x7f, 0x7f)])
  | "digit" => some (.ofRanges [(0x30, 0x39)])
  | "graph" => some (.ofRanges [(0x21, 0x7e)])
  | "lower" => some (.ofRanges [(0x61, 0x7a)])
  | "print" => some (.ofRanges [(0x20, 0x7e)])
  | "punct" => some (.ofRanges [(0x21, 0x2f), (0x3a, 0x40), (0x5b, 0x60), (0x7b, 0x7e)])
  | "space" => some (.ofRanges [(9, 0xd), (0x20, 0x20)])
  | "upper" => some (.ofRanges [(0x41, 0x5a)])
  | "word" => some Text.asciiWordCharacters
  | "xdigit" => some (.ofRanges [(0x30, 0x39), (0x41, 0x46), (0x61, 0x66)])
  | _ => none

/-- The set of a letter: digits, blanks or word characters, or the complement for a capital
letter. -/
def letterSet? (flags : Flags) (letter : Char) : Option CharSet :=
  let set? :=
    match letter.toLower with
    | 'd' => if flags.unicode then some Text.digits else named? "digit"
    | 's' => if flags.unicode then some Text.blankCharacters else named? "space"
    | 'w' => if flags.unicode then some Text.wordCharacters else named? "word"
    | _ => none
  set?.bind (negate? flags letter.isUpper)

/-! ## Escapes -/

/-- What an escape stands for. -/
inductive Escape where
  | char (c : Char)
  | set (s : CharSet)
  | anchor (a : Anchor)

def charOfNat? (n : Nat) : Option Char := if n.isValidChar then some (Char.ofNat n) else none

def hexNumber? (cs : List Char) : Option Nat :=
  cs.foldl (fun n c => do return (← n) * 16 + (← Text.hexDigit? c)) (some 0)

/-- So many hexadecimal digits. -/
def hexDigits? (flags : Flags) (acc : Nat) : Nat → List Char → Option (Nat × List Char)
  | 0, cs => some (acc, cs)
  | n + 1, cs =>
    match skip flags cs with
    | [] => none
    | c :: rest => do hexDigits? flags (acc * 16 + (← Text.hexDigit? c)) n rest

/-- A character by its number, in braces or with a fixed count of digits. -/
def hexEscape? (flags : Flags) (count : Nat) (cs : List Char) : Option (Escape × List Char) :=
  match skip flags cs with
  | '{' :: rest =>
    let rest := skip flags rest
    match takeSkipping flags (· != '}') rest.length rest with
    | (digits, '}' :: rest) => do
      if digits.isEmpty then none
      return (.char (← charOfNat? (← hexNumber? digits)), rest)
    | _ => none
  | rest => do
    let (n, rest) ← hexDigits? flags 0 count rest
    if !flags.unicode ∧ count = 2 ∧ 128 ≤ n then none
    return (.char (← charOfNat? n), rest)

def wordAnchor (flags : Flags) (edge : WordEdge) : Escape := .anchor (.word edge !flags.unicode)

def wordEdge? (name : String) : Option WordEdge :=
  match name with
  | "start" => some .wordStart
  | "end" => some .wordEnd
  | "start-half" => some .startHalf
  | "end-half" => some .endHalf
  | _ => none

/-- A word boundary, after its letter. Braces that hold a letter or a dash name a special one; any
others repeat the boundary. -/
def boundary? (flags : Flags) (cs : List Char) : Option (Escape × List Char) :=
  let plain := (wordAnchor flags .boundary, cs)
  let inName (c : Char) : Bool := c.isAlpha || c == '-'
  match cs with
  | '{' :: rest =>
    let rest := skip flags rest
    match rest with
    | [] => none
    | c :: _ =>
      if inName c then
        match takeSkipping flags inName rest.length rest with
        | (name, '}' :: rest) =>
          (wordEdge? (String.ofList name)).map fun e => (wordAnchor flags e, rest)
        | _ => none
      else some plain
  | _ => some plain

/-- An escape, after its backslash. -/
def escape? (flags : Flags) : List Char → Option (Escape × List Char)
  | [] => none
  | c :: cs =>
    let char (n : Nat) : Option (Escape × List Char) := some (.char (Char.ofNat n), cs)
    if isAscii c && !c.isAlphanum && c != '<' && c != '>' then some (.char c, cs)
    else
      match c with
      | 'x' => hexEscape? flags 2 cs
      | 'u' => hexEscape? flags 4 cs
      | 'U' => hexEscape? flags 8 cs
      | 'd' | 's' | 'w' | 'D' | 'S' | 'W' => (letterSet? flags c).map fun s => (.set s, cs)
      | 'a' => char 7
      | 'f' => char 12
      | 't' => char 9
      | 'n' => char 10
      | 'r' => char 13
      | 'v' => char 11
      | 'A' => some (.anchor .textStart, cs)
      | 'z' => some (.anchor .textEnd, cs)
      | 'b' => boundary? flags cs
      | 'B' => some (wordAnchor flags .noBoundary, cs)
      | '<' => some (wordAnchor flags .wordStart, cs)
      | '>' => some (wordAnchor flags .wordEnd, cs)
      | _ => none

/-! ## Classes in brackets -/

/-- A set in a class, and how deep classes and operators are nested in it. -/
structure ClassItem where
  chars : CharSet
  depth : Nat := 0

/-- The union of items. Two or more items nest one level deeper. -/
def ClassItem.union (items : List ClassItem) : ClassItem :=
  let deepest := (items.map (·.depth)).foldl max 0
  { chars := CharSet.unionAll (items.map (·.chars))
    depth := if items.length ≤ 1 then deepest else deepest + 1 }

abbrev SetOperator := Bool → Bool → Bool

/-- The operator that starts a text. -/
def setOperator? : List Char → Option (SetOperator × List Char)
  | '&' :: '&' :: rest => some (fun a b => a && b, rest)
  | '-' :: '-' :: rest => some (fun a b => a && !b, rest)
  | '~' :: '~' :: rest => some (fun a b => a != b, rest)
  | _ => none

/-- A class being read: the left side of an operator, and the items since then. -/
structure ClassState where
  left : Option (ClassItem × SetOperator) := none
  items : List ClassItem := []

def ClassState.close (flags : Flags) (s : ClassState) : ClassItem :=
  let right := ClassItem.union s.items
  match s.left with
  | none => right
  | some (left, operator) =>
    -- the case is ignored on each side before the operator applies
    { chars := (withCase flags left.chars).combine operator (withCase flags right.chars)
      depth := max left.depth right.depth + 1 }

/-- A named class, after its first bracket: `:name:]` or `:^name:]`. -/
def namedClass? (flags : Flags) : List Char → Option (Option CharSet × List Char)
  | ':' :: cs =>
    let (negated, cs) := match cs with
      | '^' :: rest => (true, rest)
      | _ => (false, cs)
    match cs.dropWhile (· != ':') with
    | ':' :: ']' :: rest =>
      (named? (String.ofList (cs.takeWhile (· != ':')))).map fun s =>
        (negate? flags negated (withCase flags s), rest)
    | _ => none
  | _ => none

/-- One character or escape in a class. -/
def classPart? (flags : Flags) : List Char → Option (Escape × List Char)
  | '\\' :: rest => escape? flags rest
  | c :: rest => some (.char c, rest)
  | [] => none

def classChar? (flags : Flags) : Escape → Option Char
  | .char c => if flags.unicode || isAscii c then some c else none
  | _ => none

/-- The set of one part of a class. -/
def partSet? (flags : Flags) : Escape → Option CharSet
  | .set s => some s
  | part => (classChar? flags part).map CharSet.single

/-- A part of a class, or a range of characters. A dash before a bracket or another dash is no
range. -/
def classRange? (flags : Flags) (cs : List Char) : Option (CharSet × List Char) := do
  let (first, rest) ← classPart? flags cs
  let rest := skip flags rest
  match rest with
  | [] => none
  | '-' :: more =>
    let more := skip flags more
    -- the dash stands for itself and is read next
    if more.head? = some ']' ∨ more.head? = some '-' then return (← partSet? flags first, rest)
    let (last, rest) ← classPart? flags more
    let first ← classChar? flags first
    let last ← classChar? flags last
    if last < first then none
    return (.between first last, rest)
  | _ => return (← partSet? flags first, rest)

/-- The dashes at the start of a class. -/
def leadingDashes (flags : Flags) (cs : List Char) : List ClassItem × List Char :=
  let (dashes, rest) := takeSkipping flags (· == '-') cs.length cs
  (dashes.map fun d => { chars := .single d }, rest)

/-- The start of a class, after its bracket: whether it is a complement, and the dashes and the
bracket that stand for themselves. -/
def classStart (flags : Flags) (cs : List Char) : Bool × List ClassItem × List Char :=
  let cs := skip flags cs
  let (negated, cs) := match cs with
    | '^' :: rest => (true, skip flags rest)
    | _ => (false, cs)
  match leadingDashes flags cs with
  | ([], ']' :: rest) => (negated, [{ chars := .single ']' }], skip flags rest)
  | (dashes, rest) => (negated, dashes, rest)

mutual

def class? (flags : Flags) : Nat → List Char → Option (ClassItem × List Char)
  | 0, _ => none
  | fuel + 1, cs => do
    let (negated, items, rest) := classStart flags cs
    let (item, rest) ← classRest? flags fuel { items } rest
    let chars ← negate? flags negated (withCase flags item.chars)
    return ({ chars, depth := item.depth + 1 }, rest)

/-- The rest of a class, up to its last bracket. -/
def classRest? (flags : Flags) : Nat → ClassState → List Char → Option (ClassItem × List Char)
  | 0, _, _ => none
  | fuel + 1, s, cs =>
    match skip flags cs with
    | [] => none
    | ']' :: rest => some (s.close flags, rest)
    | '[' :: rest =>
      match namedClass? flags rest with
      | some (chars, rest) => do
        classRest? flags fuel { s with items := { chars := ← chars } :: s.items } rest
      | none => do
        let (item, rest) ← class? flags fuel rest
        classRest? flags fuel { s with items := item :: s.items } rest
    | rest =>
      match setOperator? rest with
      | some (operator, rest) =>
        classRest? flags fuel { left := some (s.close flags, operator) } rest
      | none => do
        let (chars, rest) ← classRange? flags rest
        classRest? flags fuel { s with items := { chars } :: s.items } rest

end

end CoverageLedger.Pattern
