import CoverageLedger.Json.Basic

/-!
# Reading JSON

`Json.parse? s` is the value that a text writes, its objects as they stand. Arrays and objects nest
to a depth of at most 127. A number with a fraction or an exponent is read in two steps: the digits,
as many as fit in 64 bits, become the nearest double-precision number, which one power of ten then
multiplies or divides.

`Json.parseAs? form s` reads only what a `Form` asks for. Fields that nobody asks for are skimmed:
they have to be well formed, but their numbers may be of any size, their strings may hold half a
pair, and they may nest to any depth. They are left out of the value.
-/

namespace CoverageLedger.Json

open Text

def skipBlanks (cs : List Char) : List Char :=
  cs.dropWhile fun c => c == ' ' || c == '\n' || c == '\t' || c == '\r'

/-! ## Numbers -/

/-- The greatest power of ten that one step multiplies or divides by. -/
def stepPower : Nat := 308

def powerOfTen (n : Nat) : Binary64 := .ofNat (Nat.pow 10 n)

/-- Divide by a power of ten, in steps as large as can be. -/
def divideByPower (x : Binary64) (n : Nat) : Binary64 :=
  if _h : n ≤ stepPower then x.div (powerOfTen n)
  else if x.isZero then x
  else divideByPower (x.div (powerOfTen stepPower)) (n - stepPower)
termination_by n
decreasing_by
  simp only [stepPower] at _h ⊢
  omega

/-- A number of significant digits times a power of ten, unless it is too large. -/
def scaled? (negative : Bool) (significand : Nat) (power : Int) : Option Json :=
  let x := Binary64.ofNat significand
  let magnitude : Option Binary64 :=
    if power < 0 then some (divideByPower x power.natAbs)
    else if power ≤ stepPower then
      let y := x.mul (powerOfTen power.toNat)
      if y.isInfinite then none else some y
    else if x.isZero then some x
    else none
  magnitude.map fun y => .float ⟨negative, y.rank⟩

/-- The largest exponent that is read as a number. -/
def largestExponent : Nat := 0x7fffffff

/-- Digits of an exponent: the number, or nothing when it grows too large, and the rest. -/
def exponentDigits (acc : Option Nat) : List Char → Option Nat × List Char
  | [] => (acc, [])
  | c :: cs =>
    match digit? c with
    | some d =>
      exponentDigits ((acc.map fun n => n * 10 + d).filter (· ≤ largestExponent)) cs
    | none => (acc, c :: cs)

/-- The sum of two powers, held inside the range of 32 bits with sign. -/
def addPower (a b : Int) : Int := max (-0x80000000) (min 0x7fffffff (a + b))

def exponentValue? (negative down : Bool) (significand : Nat) (power : Int) :
    List Char → Option (Json × List Char)
  | [] => none
  | c :: rest =>
    match digit? c with
    | none => none
    | some d =>
      match exponentDigits (some d) rest with
      | (some n, rest) =>
        let shift : Int := if down then - (n : Int) else n
        (scaled? negative significand (addPower power shift)).map fun j => (j, rest)
      | (none, rest) =>
        -- an exponent that no field holds: zero stays zero, and a quotient becomes zero
        if significand ≠ 0 ∧ ¬ down then none else some (.float ⟨negative, 0⟩, rest)

/-- An exponent after its mark. -/
def exponentPart? (negative : Bool) (significand : Nat) (power : Int) :
    List Char → Option (Json × List Char)
  | '+' :: rest => exponentValue? negative false significand power rest
  | '-' :: rest => exponentValue? negative true significand power rest
  | rest => exponentValue? negative false significand power rest

/-- Digits taken into a number of 64 bits as long as it holds them: the number, how many were taken
and how many were left out, and the rest. -/
def wordDigits (acc taken dropped : Nat) : List Char → Nat × Nat × Nat × List Char
  | [] => (acc, taken, dropped, [])
  | c :: cs =>
    match digit? c with
    | some d =>
      if dropped = 0 ∧ acc * 10 + d < word64 then wordDigits (acc * 10 + d) (taken + 1) 0 cs
      else wordDigits acc taken (dropped + 1) cs
    | none => (acc, taken, dropped, c :: cs)

/-- What follows the whole part and the fraction. -/
def afterDigits? (negative : Bool) (significand : Nat) (power : Int) (cs : List Char) :
    Option (Json × List Char) :=
  match cs with
  | [] => (scaled? negative significand power).map fun j => (j, [])
  | c :: rest =>
    if c = 'e' ∨ c = 'E' then exponentPart? negative significand power rest
    else (scaled? negative significand power).map fun j => (j, c :: rest)

/-- A whole number without sign before it is known to be one, and the rest. -/
def wholeNumber (negative : Bool) (n : Nat) : Json :=
  if negative then
    -- minus zero, and what 64 bits with sign do not hold
    if n = 0 ∨ 0x8000000000000000 < n then .float ⟨true, (Binary64.ofNat n).rank⟩ else .int (- (n : Int))
  else .int n

/-- What follows the digits before the point, of which some were left out. -/
def afterWhole? (negative : Bool) (n dropped : Nat) : List Char → Option (Json × List Char)
  | '.' :: fraction =>
    let (all, added, more, rest) := wordDigits n 0 0 fraction
    if added + more = 0 then none else afterDigits? negative all ((dropped : Int) - added) rest
  | 'e' :: rest => exponentPart? negative n dropped rest
  | 'E' :: rest => exponentPart? negative n dropped rest
  | rest =>
    if dropped = 0 then some (wholeNumber negative n, rest)
    else (scaled? negative n dropped).map fun j => (j, rest)

/-- A number after its sign. -/
def unsignedNumber? (negative : Bool) (cs : List Char) : Option (Json × List Char) :=
  let (n, taken, dropped, rest) := wordDigits 0 0 0 cs
  if taken = 0 then none
  -- no zeros before the first digit
  else if cs.head? = some '0' ∧ 1 < taken + dropped then none
  else afterWhole? negative n dropped rest

/-! ## Strings -/

def hexUnit? (a b c d : Char) : Option Nat := do
  let a ← hexDigit? a
  let b ← hexDigit? b
  let c ← hexDigit? c
  let d ← hexDigit? d
  return ((a * 16 + b) * 16 + c) * 16 + d

def escape? (c : Char) : Option Char :=
  match c with
  | '"' => some '"'
  | '\\' => some '\\'
  | '/' => some '/'
  | 'b' => some (Char.ofNat 8)
  | 'f' => some (Char.ofNat 12)
  | 'n' => some '\n'
  | 'r' => some '\r'
  | 't' => some '\t'
  | _ => none

/-- The rest of a string up to its closing mark, and what follows. A character outside the basic
plane is two escapes together, and neither stands alone. -/
def stringRest? (acc : List Char) : List Char → Option (String × List Char)
  | [] => none
  | '"' :: rest => some (String.ofList acc.reverse, rest)
  | '\\' :: 'u' :: a :: b :: c :: d :: rest =>
    match hexUnit? a b c d with
    | none => none
    | some unit =>
      -- the first half of a pair needs the second half right after it
      if 0xD800 ≤ unit ∧ unit < 0xDC00 then
        match rest with
        | '\\' :: 'u' :: p :: q :: r :: s :: rest =>
          match hexUnit? p q r s with
          | none => none
          | some low =>
            if 0xDC00 ≤ low ∧ low < 0xE000 then
              let point := 0x10000 + (unit - 0xD800) * 0x400 + (low - 0xDC00)
              stringRest? (Char.ofNat point :: acc) rest
            else none
        | _ => none
      else if 0xDC00 ≤ unit ∧ unit < 0xE000 then none
      else stringRest? (Char.ofNat unit :: acc) rest
  | '\\' :: c :: rest =>
    match escape? c with
    | some e => stringRest? (e :: acc) rest
    | none => none
  | c :: rest => if c.toNat < 32 ∨ c = '\\' then none else stringRest? (c :: acc) rest

/-! ## Skimming -/

/-- The rest after one or more digits. -/
def skimDigits? (cs : List Char) : Option (List Char) :=
  let isDigit (c : Char) : Bool := (digit? c).isSome
  if (cs.takeWhile isDigit).isEmpty then none else some (cs.dropWhile isDigit)

/-- The rest after the exponent of a number, if it has one. -/
def skimExponent? (cs : List Char) : Option (List Char) :=
  match cs with
  | [] => some []
  | c :: rest =>
    if c = 'e' ∨ c = 'E' then
      match rest with
      | '+' :: rest => skimDigits? rest
      | '-' :: rest => skimDigits? rest
      | rest => skimDigits? rest
    else some cs

/-- The rest after a number without its sign. -/
def skimNumber? (cs : List Char) : Option (List Char) := do
  let rest ← match cs with
    | '0' :: rest => if (rest.head?.bind digit?).isSome then none else some rest
    | _ => skimDigits? cs
  match rest with
  | '.' :: fraction => skimExponent? (← skimDigits? fraction)
  | rest => skimExponent? rest

/-- The rest after a string that started before. -/
def skimString? : List Char → Option (List Char)
  | [] => none
  | '"' :: rest => some rest
  | '\\' :: 'u' :: a :: b :: c :: d :: rest =>
    if (hexUnit? a b c d).isSome then skimString? rest else none
  | '\\' :: c :: rest => if (escape? c).isSome then skimString? rest else none
  | c :: rest => if c.toNat < 32 ∨ c = '\\' then none else skimString? rest

mutual

/-- The rest after a value. -/
def skim? : Nat → List Char → Option (List Char)
  | 0, _ => none
  | fuel + 1, cs =>
    match skipBlanks cs with
    | 'n' :: 'u' :: 'l' :: 'l' :: rest => some rest
    | 't' :: 'r' :: 'u' :: 'e' :: rest => some rest
    | 'f' :: 'a' :: 'l' :: 's' :: 'e' :: rest => some rest
    | '"' :: rest => skimString? rest
    | '-' :: rest => skimNumber? rest
    | '[' :: rest =>
      match skipBlanks rest with
      | ']' :: rest => some rest
      | rest => skimItems? fuel rest
    | '{' :: rest =>
      match skipBlanks rest with
      | '}' :: rest => some rest
      | rest => skimFields? fuel rest
    | rest => skimNumber? rest

/-- The rest after the items of an array from one of them on. -/
def skimItems? : Nat → List Char → Option (List Char)
  | 0, _ => none
  | fuel + 1, cs => do
    match skipBlanks (← skim? fuel cs) with
    | ',' :: rest => skimItems? fuel rest
    | ']' :: rest => some rest
    | _ => none

/-- The rest after the fields of an object from one of them on. -/
def skimFields? : Nat → List Char → Option (List Char)
  | 0, _ => none
  | fuel + 1, cs => do
    let '"' :: rest := skipBlanks cs | none
    let ':' :: rest := skipBlanks (← skimString? rest) | none
    match skipBlanks (← skim? fuel rest) with
    | ',' :: rest => skimFields? fuel rest
    | '}' :: rest => some rest
    | _ => none

end

/-! ## Values -/

/-- What is asked for in a value. -/
inductive Form where
  | whole
  /-- The fields of a record, which may also be the items of an array. -/
  | record (fields : List (String × Form))
  /-- All fields of an object whose names are numbers. -/
  | numbered (each : Form)

/-- A record of fields that are all read as a whole. -/
def Form.ofNames (names : List String) : Form := .record (names.map fun name => (name, .whole))

/-- What is asked for in a field. Nothing is asked for where a record has no field of the name. -/
def Form.field? (name : String) : Form → Option Form
  | .whole => some .whole
  | .record fields => fields.lookup name
  | .numbered each => some each

/-- What is asked for in the items of an array, one after the other. -/
def Form.items : Form → List Form
  | .record fields => fields.map Prod.snd
  | _ => []

/-- The name of a field after its first mark, and what follows. Numbers are written without
escapes. -/
def fieldName? (form : Form) (cs : List Char) : Option (String × List Char) :=
  match form with
  | .numbered _ => if (cs.takeWhile (· != '"')).contains '\\' then none else stringRest? [] cs
  | _ => stringRest? [] cs

/-- The nesting that is refused. -/
def depthLimit : Nat := 128

mutual

/-- A value at the start of a text, and the rest. -/
def value? : Nat → Form → Nat → List Char → Option (Json × List Char)
  | 0, _, _, _ => none
  | fuel + 1, form, depth, cs =>
    match skipBlanks cs with
    | 'n' :: 'u' :: 'l' :: 'l' :: rest => some (.null, rest)
    | 't' :: 'r' :: 'u' :: 'e' :: rest => some (.bool true, rest)
    | 'f' :: 'a' :: 'l' :: 's' :: 'e' :: rest => some (.bool false, rest)
    | '"' :: rest => (stringRest? [] rest).map fun (s, rest) => (.string s, rest)
    | '-' :: rest => unsignedNumber? true rest
    | '[' :: rest =>
      if depth ≤ 1 then none
      else
        match skipBlanks rest with
        | ']' :: rest => some (.array [], rest)
        | rest => items? fuel form.items (depth - 1) [] rest
    | '{' :: rest =>
      if depth ≤ 1 then none
      else
        match skipBlanks rest with
        | '}' :: rest => some (.object [], rest)
        | rest => fields? fuel form (depth - 1) [] rest
    | rest => unsignedNumber? false rest

/-- The items of an array from one of them to its end, and the rest. -/
def items? : Nat → List Form → Nat → List Json → List Char → Option (Json × List Char)
  | 0, _, _, _, _ => none
  | fuel + 1, forms, depth, acc, cs =>
    match value? fuel (forms.headD .whole) depth cs with
    | none => none
    | some (j, rest) =>
      match skipBlanks rest with
      | ',' :: rest => items? fuel forms.tail depth (j :: acc) rest
      | ']' :: rest => some (.array (j :: acc).reverse, rest)
      | _ => none

/-- The fields of an object from one of them to its end, and the rest. -/
def fields? : Nat → Form → Nat → List (String × Json) → List Char → Option (Json × List Char)
  | 0, _, _, _, _ => none
  | fuel + 1, form, depth, acc, cs =>
    match skipBlanks cs with
    | '"' :: rest =>
      match fieldName? form rest with
      | none => none
      | some (name, rest) =>
        match skipBlanks rest with
        | ':' :: rest =>
          let next? := match form.field? name with
            | some form =>
              (value? fuel form depth rest).map fun (j, rest) => ((name, j) :: acc, rest)
            | none => (skim? fuel rest).map fun rest => (acc, rest)
          match next? with
          | none => none
          | some (acc, rest) =>
            match skipBlanks rest with
            | ',' :: rest => fields? fuel form depth acc rest
            | '}' :: rest => some (.object acc.reverse, rest)
            | _ => none
        | _ => none
    | _ => none

end

/-- What is asked for in the value that a text writes, with nothing but blanks around it. -/
def parseAs? (form : Form) (cs : List Char) : Option Json :=
  match value? (2 * cs.length + 2) form depthLimit cs with
  | some (j, rest) => if (skipBlanks rest).isEmpty then some j else none
  | none => none

/-- The value that a text writes, with nothing but blanks around it. -/
def parse? (cs : List Char) : Option Json := parseAs? .whole cs

end CoverageLedger.Json
