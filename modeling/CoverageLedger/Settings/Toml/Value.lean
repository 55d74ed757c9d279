import CoverageLedger.Settings.Toml.Text
import CoverageLedger.Settings.Value

/-!
# Values of TOML

Numbers, dates and times, and lists and tables, which are checked but not kept.
-/

namespace CoverageLedger.Toml

/-! ## Numbers -/

/-- Digits without the underscores between them, if every underscore is between two digits. -/
def withoutUnderscores? (isDigit : Char → Bool) : List Char → Option (List Char)
  | [] => some []
  | '_' :: _ => none
  | c :: '_' :: d :: rest =>
    if isDigit c && isDigit d then (withoutUnderscores? isDigit (d :: rest)).map (c :: ·) else none
  | c :: rest => (withoutUnderscores? isDigit rest).map (c :: ·)

/-- A number in a base, after the mark of the base. -/
def inBase? (base : Nat) (cs : List Char) : Option SettingValue := do
  let valid (c : Char) : Bool := (Text.hexDigit? c).any (· < base)
  let digits ← withoutUnderscores? valid cs
  if digits.isEmpty ∨ !digits.all valid then none
  let n := digits.foldl (fun n c => n * base + (Text.hexDigit? c).getD 0) 0
  if n < 0x8000000000000000 then some (.int n) else none

/-- Whether digits start with a zero that does not stand alone. -/
def hasLeadingZero : List Char → Bool
  | '0' :: c :: _ => c.isDigit
  | _ => false

/-- A float by its digits. None is so great that it has to be read as infinity. -/
def float? (cs : List Char) : Option SettingValue := do
  let x ← Decimal.read? cs
  if x = .infinity false then none else some (.float x)

/-- A number: an integer of 64 bits, or a float, which has digits on both sides of a point. -/
def number? (cs : List Char) : Option SettingValue := do
  let (sign, unsigned) := match cs with
    | '+' :: rest => ([], rest)
    | '-' :: rest => (['-'], rest)
    | _ => ([], cs)
  if unsigned = "inf".toList ∨ unsigned = "nan".toList then
    return .float (← Decimal.read? (sign ++ unsigned))
  let digits ← withoutUnderscores? Char.isDigit unsigned
  if hasLeadingZero digits then none
  let whole := digits.takeWhile Char.isDigit
  let rest := digits.dropWhile Char.isDigit
  if whole.isEmpty then none
  match rest with
  | [] => return .int (← Text.int64? (sign ++ digits))
  | '.' :: fraction =>
    if (fraction.takeWhile Char.isDigit).isEmpty then none
    float? (sign ++ digits)
  | _ => float? (sign ++ digits)

/-! ## Dates and times -/

/-- The rest of a text after a date. -/
def afterDate? (cs : List Char) : Option (List Char) := do
  let (year, rest) ← Instant.number? 4 4 cs
  let (month, rest) ← Instant.number? 2 2 (← Instant.after? '-' rest)
  let (day, rest) ← Instant.number? 2 2 (← Instant.after? '-' rest)
  if 1 ≤ month ∧ month ≤ 12 ∧ 1 ≤ day ∧ day ≤ Instant.daysOfMonth year month then some rest
  else none

/-- The rest of a text after a time of day. A minute may have a leap second. -/
def afterTime? (cs : List Char) : Option (List Char) := do
  let (hour, rest) ← Instant.number? 2 2 cs
  let (minute, rest) ← Instant.number? 2 2 (← Instant.after? ':' rest)
  let (second, rest) ← Instant.number? 2 2 (← Instant.after? ':' rest)
  let (_, rest) ← Instant.fraction? rest
  if hour < 24 ∧ minute < 60 ∧ second ≤ 60 then some rest else none

/-- The rest of a text after an offset from universal time, if there is one. -/
def afterOffset? : List Char → Option (List Char)
  | [] => some []
  | c :: cs =>
    if c = 'Z' ∨ c = 'z' then some cs
    else if c = '+' ∨ c = '-' then do
      let (hours, rest) ← Instant.number? 2 2 cs
      let (minutes, rest) ← Instant.number? 2 2 (← Instant.after? ':' rest)
      if hours < 24 ∧ minutes < 60 then some rest else none
    else none

/-- Whether a text is a date, a time of day, or both with or without an offset. -/
def isMoment (cs : List Char) : Bool :=
  let rest? := match afterDate? cs with
    | some [] => some []
    | some rest => do afterOffset? (← afterTime? (← Instant.afterDate? rest))
    | none => afterTime? cs
  rest? == some []

/-! ## Values -/

/-- A value that is neither a string nor compound. -/
def plain? (cs : List Char) : Option SettingValue :=
  match cs with
  | '0' :: 'x' :: rest => inBase? 16 rest
  | '0' :: 'o' :: rest => inBase? 8 rest
  | '0' :: 'b' :: rest => inBase? 2 rest
  | _ =>
    if cs = "true".toList then some (.bool true)
    else if cs = "false".toList then some (.bool false)
    else if isMoment cs then some (.text (String.ofList cs))
    else number? cs

/-- Whether a character goes on a plain value. -/
def inPlain (c : Char) : Bool := isPlain c && !([',', ']', '}', '#'].contains c)

mutual

/-- A value and what follows it. Lists and tables may be nested `left` levels deep in it. -/
def value? : Nat → Nat → List Char → Option (SettingValue × List Char)
  | 0, _, _ => none
  | fuel + 1, left, cs =>
    match string? cs, cs with
    | some string, _ => string.map fun (s, rest) => (.text s, rest)
    | none, '[' :: rest =>
      if left = 0 then none else (items? fuel (left - 1) rest).map fun rest => (.compound, rest)
    | none, '{' :: rest =>
      if left = 0 then none
      else
        match skipSpaces rest with
        | '}' :: rest => some (.compound, rest)
        | rest => (fields? fuel (left - 1) [] rest).map fun rest => (.compound, rest)
    | none, _ =>
      (plain? (Text.dropLastWhile isSpace (cs.takeWhile inPlain))).map fun v =>
        (v, cs.dropWhile inPlain)

def items? : Nat → Nat → List Char → Option (List Char)
  | 0, _, _ => none
  | fuel + 1, left, cs =>
    match skipRows true cs.length cs with
    | ']' :: rest => some rest
    | cs => do
      let (_, rest) ← value? fuel left cs
      match skipRows true rest.length rest with
      | ',' :: rest => items? fuel left rest
      | ']' :: rest => some rest
      | _ => none

def fields? : Nat → Nat → List Path → List Char → Option (List Char)
  | 0, _, _, _ => none
  | fuel + 1, left, seen, cs => do
    let (path, rest) ← path? cs
    let '=' :: rest := rest | none
    let (_, rest) ← value? fuel left (skipSpaces rest)
    if seen.any fun p => p.isPrefixOf path || path.isPrefixOf p then none
    match skipSpaces rest with
    | ',' :: rest => fields? fuel left (path :: seen) (skipSpaces rest)
    | '}' :: rest => some rest
    | _ => none

end

/-- A value that a row gives to a name, and what follows it. -/
def rowValue? (cs : List Char) : Option (SettingValue × List Char) :=
  value? (cs.length + 1) (nestingLimit - 1) cs

end CoverageLedger.Toml
