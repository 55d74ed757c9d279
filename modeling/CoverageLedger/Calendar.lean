import CoverageLedger.Decimal.Fixed
import CoverageLedger.Text.Blank
import CoverageLedger.Text.Numeral

/-!
# Instants and their texts

An `Instant` is a number of seconds since the start of 1970 in universal time, with a fraction in
nanoseconds. A leap second is the last second of its minute with a whole second of fraction.

`Instant.ofStrictText?` reads the internet date and time format. `Instant.ofLooseText?` also takes
short fields, blanks between them and years of other lengths. `Instant.text` writes the format.
-/

namespace CoverageLedger

structure Instant where
  seconds : Int
  nanos : Nat := 0
  deriving DecidableEq, Repr

namespace Instant

/-! ## The calendar -/

/-- The days from the start of 1970 to a date. -/
def daysOfDate (year month day : Int) : Int :=
  -- years that start in March put the leap day last
  let y := if month ≤ 2 then year - 1 else year
  let era := y / 400
  let yearOfEra := y - era * 400
  let dayOfYear := (153 * ((month + 9) % 12) + 2) / 5 + day - 1
  era * 146097 + (yearOfEra * 365 + yearOfEra / 4 - yearOfEra / 100 + dayOfYear) - 719468

/-- The year, month and day of a number of days from the start of 1970. -/
def dateOfDays (days : Int) : Int × Nat × Nat :=
  -- days from the first of March of the year 0, in eras of 400 years
  let z := days + 719468
  let era := z / 146097
  let dayOfEra := z - era * 146097
  let yearOfEra :=
    (dayOfEra - dayOfEra / 1460 + dayOfEra / 36524 - dayOfEra / 146096) / 365
  let dayOfYear := dayOfEra - (365 * yearOfEra + yearOfEra / 4 - yearOfEra / 100)
  let shifted := (5 * dayOfYear + 2) / 153
  let day := dayOfYear - (153 * shifted + 2) / 5 + 1
  let month := if shifted < 10 then shifted + 3 else shifted - 9
  (yearOfEra + era * 400 + (if month ≤ 2 then 1 else 0), month.toNat, day.toNat)

def isLeapYear (year : Int) : Bool := year % 4 == 0 && (year % 100 != 0 || year % 400 == 0)

def daysOfMonth (year : Int) (month : Nat) : Nat :=
  if month = 2 then if isLeapYear year then 29 else 28
  else if month = 4 ∨ month = 6 ∨ month = 9 ∨ month = 11 then 30
  else 31

def firstSecond : Int := -8334601228800

def lastSecond : Int := 8210266876799

/-- The instant of so many seconds, when it has a date. -/
def ofSeconds? (seconds : Int) : Option Instant :=
  if firstSecond ≤ seconds ∧ seconds ≤ lastSecond then some { seconds } else none

/-- The instant of a date and a time of day at an offset from universal time. There are dates for it
both at the offset and in universal time. -/
def ofFields? (year : Int) (month day hour minute second nanos : Nat) (offset : Int) :
    Option Instant :=
  if 1 ≤ month ∧ month ≤ 12 ∧ 1 ≤ day ∧ day ≤ daysOfMonth year month ∧ hour < 24 ∧ minute < 60 ∧
      second ≤ 60 ∧ offset.natAbs < 86400 then
    let days := daysOfDate year month day
    let ofDay : Int := hour * 3600 + minute * 60 + (min second 59 : Nat)
    -- a leap second counts as a further second of fraction
    let leap := if second = 60 then 1000000000 else 0
    (ofSeconds? (days * 86400 + ofDay)).bind fun i =>
      (ofSeconds? (i.seconds - offset)).map fun i => { i with nanos := nanos + leap }
  else none

/-! ## Reading -/

/-- Digits at the start of a text, at most so many: their number, how many they are, and the
rest. -/
def takeUpTo (acc count : Nat) : Nat → List Char → Nat × Nat × List Char
  | 0, cs => (acc, count, cs)
  | _ + 1, [] => (acc, count, [])
  | most + 1, c :: cs =>
    match Text.digit? c with
    | some d => takeUpTo (acc * 10 + d) (count + 1) most cs
    | none => (acc, count, c :: cs)

/-- A number of at least and at most so many digits, and the rest. -/
def number? (least most : Nat) (cs : List Char) : Option (Nat × List Char) :=
  let (n, count, rest) := takeUpTo 0 0 most cs
  if count < least then none else some (n, rest)

def after? (c : Char) : List Char → Option (List Char)
  | d :: cs => if c = d then some cs else none
  | [] => none

/-- A fraction of a second after its point, in nanoseconds; digits after the ninth are passed
over. -/
def fraction? (cs : List Char) : Option (Nat × List Char) :=
  match cs with
  | '.' :: rest =>
    let (n, count, rest) := takeUpTo 0 0 9 rest
    if count = 0 then none
    else some (n * Nat.pow 10 (9 - count), rest.dropWhile fun c => (Text.digit? c).isSome)
  | _ => some (0, cs)

def afterDate? : List Char → Option (List Char)
  | c :: cs => if c = 'T' ∨ c = 't' ∨ c = ' ' then some cs else none
  | [] => none

/-- An offset from universal time in seconds. `colon` passes over what may stand between its hours
and minutes. -/
def offset? (colon : List Char → Option (List Char)) : List Char → Option (Int × List Char)
  | [] => none
  | c :: cs =>
    if c = 'Z' ∨ c = 'z' then some (0, cs)
    else if c = '+' ∨ c = '-' ∨ c = Char.ofNat 0x2212 then do
      let (hours, rest) ← number? 2 2 cs
      let rest ← colon rest
      let (minutes, rest) ← number? 2 2 rest
      if 60 ≤ minutes then none
      let seconds : Int := hours * 3600 + minutes * 60
      return (if c = '+' then seconds else -seconds, rest)
    else none

def ofStrictText? (cs : List Char) : Option Instant := do
  let (year, rest) ← number? 4 4 cs
  let (month, rest) ← number? 2 2 (← after? '-' rest)
  let (day, rest) ← number? 2 2 (← after? '-' rest)
  let (hour, rest) ← number? 2 2 (← afterDate? rest)
  let (minute, rest) ← number? 2 2 (← after? ':' rest)
  let (second, rest) ← number? 2 2 (← after? ':' rest)
  let (nanos, rest) ← fraction? rest
  let (offset, rest) ← offset? (after? ':') rest
  if !rest.isEmpty then none
  ofFields? year month day hour minute second nanos offset

/-- A year with an optional sign; without one it has at most four digits. -/
def looseYear? (cs : List Char) : Option (Int × List Char) :=
  match cs with
  | '-' :: rest => (number? 1 rest.length rest).map fun (n, rest) => (- (n : Int), rest)
  | '+' :: rest => (number? 1 rest.length rest).map fun (n, rest) => ((n : Int), rest)
  | _ => (number? 1 4 cs).map fun (n, rest) => ((n : Int), rest)

/-- A field of one or two digits after blanks. -/
def looseField? (cs : List Char) : Option (Nat × List Char) := number? 1 2 (Text.trimStart cs)

/-- The rest of a text after blanks and a character. -/
def looseAfter? (c : Char) (cs : List Char) : Option (List Char) := after? c (Text.trimStart cs)

/-- An offset after blanks, or the letters of universal time. -/
def looseOffset? (cs : List Char) : Option (Int × List Char) :=
  let cs := Text.trimStart cs
  if (cs.take 3).map Char.toUpper = ['U', 'T', 'C'] then some (0, cs.drop 3)
  else offset? (fun rest => some (rest.dropWhile fun c => c == ':' || Text.isBlank c)) cs

def ofLooseText? (cs : List Char) : Option Instant := do
  let (year, rest) ← looseYear? (Text.trimStart cs)
  let (month, rest) ← looseField? (← looseAfter? '-' rest)
  let (day, rest) ← looseField? (← looseAfter? '-' rest)
  let (hour, rest) ← looseField? (← afterDate? rest)
  let (minute, rest) ← looseField? (← looseAfter? ':' rest)
  let (second, rest) ← looseField? (← looseAfter? ':' rest)
  let (nanos, rest) ← fraction? rest
  let (offset, rest) ← looseOffset? rest
  if !(Text.trimStart rest).isEmpty then none
  ofFields? year month day hour minute second nanos offset

/-! ## Writing -/

/-- The text of a year: four digits, or a sign and at least four. -/
def yearText (year : Int) : List Char :=
  if 0 ≤ year ∧ year ≤ 9999 then Decimal.zeroPadded 4 year.natAbs
  else (if year < 0 then '-' else '+') :: Decimal.zeroPadded 4 year.natAbs

/-- The text of a fraction: none, or three, six or nine digits. -/
def fractionText (nanos : Nat) : List Char :=
  if nanos = 0 then []
  else if nanos % 1000000 = 0 then '.' :: Decimal.zeroPadded 3 (nanos / 1000000)
  else if nanos % 1000 = 0 then '.' :: Decimal.zeroPadded 6 (nanos / 1000)
  else '.' :: Decimal.zeroPadded 9 nanos

/-- The internet date and time format, in universal time. -/
def text (i : Instant) : String :=
  let (year, month, day) := dateOfDays (i.seconds / 86400)
  let ofDay := (i.seconds % 86400).toNat
  let leap := i.nanos / 1000000000
  let two := Decimal.zeroPadded 2
  String.ofList <|
    yearText year ++ '-' :: two month ++ '-' :: two day ++ 'T' :: two (ofDay / 3600) ++
      ':' :: two (ofDay / 60 % 60) ++ ':' :: two (ofDay % 60 + leap) ++
      fractionText (i.nanos % 1000000000) ++ "+00:00".toList

def before (a b : Instant) : Bool :=
  a.seconds < b.seconds || (a.seconds == b.seconds && a.nanos < b.nanos)

end Instant

end CoverageLedger
