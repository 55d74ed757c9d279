import CoverageLedger.Line.Record
import CoverageLedger.Reading.Merge

/-!
# Joining lines

Two states of one line are joined session by session. The reading and the complexity of the result
follow from its sessions, unless the first line is only to be completed (`joined` is false), which
keeps its own.
-/

namespace CoverageLedger

/-! ## Branch arms -/

namespace BranchArm

/-- Put an arm in its place among ascending arms, once. -/
def place (a : BranchArm) : List BranchArm → List BranchArm
  | [] => [a]
  | b :: rest =>
    match a.order b with
    | .lt => a :: b :: rest
    | .eq => b :: rest
    | .gt => b :: place a rest

/-- The arms of a list in ascending order, each once. -/
def ascend (l : List BranchArm) : List BranchArm := l.foldr place []

end BranchArm

namespace LineSession

/-- One step through the sessions of a line: the arms still missing, or the final answer that no arm
is. A session that reported arms keeps those it misses too, and a session that ran the whole line
misses none. -/
def missingStep (missing : Option (List BranchArm)) (s : LineSession) :
    Except Unit (Option (List BranchArm)) :=
  let next : Except Unit (Option (List BranchArm)) :=
    match s.missing with
    | some arms =>
      let set := BranchArm.ascend arms
      .ok (some (match missing with
        | some acc => acc.filter fun a => set.contains a
        | none => set))
    | none => if s.reading.outcome = some .hit then .error () else .ok missing
  -- no arm is left that all sessions could miss
  match next with
  | .ok (some []) => .error ()
  | other => other

/-- The branch arms that no session took; nothing when no session reported arms. -/
def mergeMissing (sessions : List LineSession) : Option (List BranchArm) :=
  if sessions.all (·.missing.isNone) then none
  else
    match sessions.foldlM missingStep none with
    | .ok missing => some (missing.getD [])
    | .error _ => some []

/-- Ranges in the order of their first columns, open ones first. -/
def startOrder (a b : ColumnRange) : Bool :=
  match a.first, b.first with
  | none, _ => true
  | some _, none => false
  | some x, some y => x ≤ y

end LineSession

namespace Complexity

/-- The greater complexity; a pair says more than a plain total. -/
def merge : Option Complexity → Option Complexity → Option Complexity
  | none, other | other, none => other
  | some (.total x), some (.total y) => some (.total (max x y))
  | some (.pair c₁ t₁), some (.pair c₂ t₂) => some (.pair (max c₁ c₂) (max t₁ t₂))
  | some (.pair c t), some (.total _) | some (.total _), some (.pair c t) => some (.pair c t)

end Complexity

namespace LineSession

/-- The column ranges of two readings of one session together. -/
def mergePartials : Option (List ColumnRange) → Option (List ColumnRange) →
    Option (List ColumnRange)
  | none, none => none
  | a, b => some ((a.getD [] ++ b.getD []).mergeSort startOrder)

/-- Join two readings of one session. -/
def merge (a b : LineSession) : LineSession :=
  let missing := mergeMissing [a, b]
  { id := a.id
    reading := a.reading.merge b.reading missing
    missing
    partials := mergePartials a.partials b.partials
    complexity := Complexity.merge a.complexity b.complexity }

/-- Put a session among others: joined with the first of its id, or at the end. -/
def mergeInto (s : LineSession) : List LineSession → List LineSession
  | [] => [s]
  | own :: rest => if own.id = s.id then own.merge s :: rest else own :: mergeInto s rest

def mergeLists (a b : List LineSession) : List LineSession :=
  b.foldl (fun acc s => mergeInto s acc) a

/-- The reading of a line that its sessions give. -/
def readingOf (sessions : List LineSession) : Reading :=
  Reading.mergeAll (sessions.map (·.reading)) (mergeMissing sessions)

/-- The complexity of a line that its sessions give. -/
def complexityOf (sessions : List LineSession) : Option Complexity :=
  sessions.foldl (fun acc s => Complexity.merge acc s.complexity) none

end LineSession

/-! ## Messages and datapoints -/

namespace Line

/-- Join messages: lists one after the other, objects field by field with the later value. -/
def mergeMessages : Option Json → Option Json → Option Json
  | none, other | other, none => other
  | some (.array a), some (.array b) => some (.array (a ++ b))
  | some (.object a), some (.object b) => some (.ofTable (Table.ofList (a ++ b)))
  | some a, some _ => some a

end Line

namespace Datapoint

/-- Equality of datapoints, their readings compared as numbers are. -/
def same (a b : Datapoint) : Bool :=
  a.session == b.session && a.reading.same b.reading && a.kind == b.kind && a.labels == b.labels

/-- Drop every element that is the same as the one kept before it. -/
def dropRepeats : List Datapoint → List Datapoint
  | [] => []
  | a :: rest => a :: go a rest
where
  go (previous : Datapoint) : List Datapoint → List Datapoint
    | [] => []
    | b :: rest => if previous.same b then go previous rest else b :: go b rest

/-- Join two lists of datapoints, sorted and each once. -/
def mergeLists : Option (List Datapoint) → Option (List Datapoint) → Option (List Datapoint)
  | none, none => none
  | a, b =>
    some (dropRepeats ((a.getD [] ++ b.getD []).mergeSort fun x y => (x.order y).isLE))

end Datapoint

/-! ## Lines -/

namespace Line

/-- Join two states of a line. With `joined` the reading and the complexity follow from the sessions
of both; without it those of the first line stay. -/
def merge (a b : Line) (joined : Bool) : Line :=
  let sessions := LineSession.mergeLists a.sessions b.sessions
  { reading :=
      if !joined then a.reading
      else if sessions.isEmpty then a.reading.merge b.reading none
      else LineSession.readingOf sessions
    kind := a.kind.or b.kind
    sessions
    messages := mergeMessages a.messages b.messages
    complexity :=
      if !joined then a.complexity
      else if sessions.isEmpty then Complexity.merge a.complexity b.complexity
      else LineSession.complexityOf sessions
    datapoints := Datapoint.mergeLists a.datapoints b.datapoints }

end Line

end CoverageLedger
