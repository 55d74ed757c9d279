import CoverageLedger.PathFilter
import CoverageLedger.Report.Edit

/-!
# Carrying coverage forward

A report that is carried forward keeps the sessions of some flags, and the lines that they made, for
use with a later commit. `Carry.nextName` names a session after one more round: `CF[n] - name`
counts the rounds, and older names with a `CF ` for every round are read as well.
-/

namespace CoverageLedger.Carry

def defaultName : String := "Carriedforward"

/-- What older names have in front for every round. -/
def oldMark : List Char := "CF ".toList

def countMark : List Char := "CF[".toList

/-- The rounds that the marks of an older name count, and the name without them. -/
def oldRounds : Nat → List Char → Nat × List Char
  | 0, cs => (0, cs)
  | fuel + 1, cs =>
    match Text.afterStart oldMark cs with
    | some rest =>
      let (rounds, name) := oldRounds fuel rest
      (rounds + 1, name)
    | none => (0, cs)

/-- The number of rounds in brackets at the start of a name, and what follows them. -/
def countedRounds? (cs : List Char) : Option (Nat × List Char) := do
  let (digits, tail) ← Text.splitOnce ']' (← Text.afterStart countMark cs)
  let n ← Text.digits? digits
  if n < Text.word64 then some (n, tail) else none

def countText (rounds : Nat) : String := "CF[" ++ toString rounds ++ "]"

def nextName (name : Option String) : String :=
  let text := name.getD ""
  let cs := text.toList
  if cs.isEmpty then defaultName
  else
    match oldRounds cs.length cs, countedRounds? cs with
    | (rounds + 1, rest), _ => countText (rounds + 1) ++ " - " ++ String.ofList rest
    | _, some (rounds, tail) => countText (rounds + 1) ++ String.ofList tail
    | _, none => countText 1 ++ " - " ++ text

/-- A session after one more round, with other extras if there are any. -/
def carried (extras : Option (Table String Json)) (s : Session) : Session :=
  { s with
    kind := .carriedForward
    name := some (nextName s.name)
    extras := extras.getD s.extras }

/-- The report without the files that a filter does not choose. -/
def chosenFiles (filter : PathFilter) (r : Report) : Report :=
  (r.names.filter (!filter.chooses ·)).foldl (fun r name => (r.remove name).2) r

/-- The report that is carried forward: the files that match some patterns, or all files without
patterns, and the sessions that have any of some flags. -/
def report [PatternLanguage] (r : Report) (flags paths : List String)
    (extras : Option (Table String Json)) : Result Report := do
  let r ← if paths.isEmpty then pure r else do
    pure (chosenFiles (← PathFilter.ofPatterns? paths) r)
  -- what is left after the others are dropped are the sessions to carry
  let dropped := (r.sessions.filter fun _ s => !s.hasAnyFlag flags).keys
  let r := r.deleteSessions dropped
  return { r.changed with sessions := r.sessions.map fun _ s => carried extras s }

end CoverageLedger.Carry
