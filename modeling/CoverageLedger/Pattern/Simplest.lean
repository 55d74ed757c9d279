import CoverageLedger.Pattern

/-!
# Patterns in their simplest form

The functions here put patterns together and write the result as simply as they can: sequences and
choices are flat and lean to the right, neighbouring characters are one literal, a choice between
characters is a set, and what all choices start with stands before them. Together they keep a
pattern in its simplest form while it is built up from its parts.
-/

namespace CoverageLedger.Pattern

/-! ## Lengths -/

/-- The least number of characters in a match, unless nothing can match. -/
def leastLength? : Pattern → Option Nat
  | .empty | .anchor _ => some 0
  | .literal cs => some cs.length
  | .set s => if s.isEmpty then none else some 1
  | .group _ p => p.leastLength?
  | .seq p q => do return (← p.leastLength?) + (← q.leastLength?)
  | .either p q => do return min (← p.leastLength?) (← q.leastLength?)
  | .times p least _ _ => p.leastLength?.map (· * least)

/-- The greatest number of characters in a match, unless there is none. -/
def greatestLength? : Pattern → Option Nat
  | .empty | .anchor _ => some 0
  | .literal cs => some cs.length
  | .set s => if s.isEmpty then none else some 1
  | .group _ p => p.greatestLength?
  | .seq p q => do return (← p.greatestLength?) + (← q.greatestLength?)
  | .either p q => do return max (← p.greatestLength?) (← q.greatestLength?)
  | .times p _ most _ => do return (← p.greatestLength?) * (← most)

/-- Whether every match has characters. -/
def consumes (p : Pattern) : Bool := p.leastLength?.any (0 < ·)

/-- Whether no match has characters. -/
def isWeightless (p : Pattern) : Bool := p.greatestLength? == some 0

/-- Whether every match is at the start of the text. -/
def atTextStart : Pattern → Bool
  | .anchor a => a == .textStart
  | .group _ p => p.atTextStart
  | .seq p q => p.atTextStart || (p.isWeightless && q.atTextStart)
  | .either p q => p.atTextStart && q.atTextStart
  | .times p least _ _ => decide (0 < least) && p.atTextStart
  | _ => false

/-- Whether every match is at the end of the text. -/
def atTextEnd : Pattern → Bool
  | .anchor a => a == .textEnd
  | .group _ p => p.atTextEnd
  | .seq p q => q.atTextEnd || (q.isWeightless && p.atTextEnd)
  | .either p q => p.atTextEnd && q.atTextEnd
  | .times p least _ _ => decide (0 < least) && p.atTextEnd
  | _ => false

/-! ## Sets and repetitions -/

def ofSet (s : CharSet) : Pattern :=
  match s.only? with
  | some c => .literal [c]
  | none => .set s

/-- A repetition. Once is enough for what has no characters. -/
def ofRepetition (p : Pattern) (least : Nat) (most : Option Nat) (lazy : Bool) : Pattern :=
  let (least, most) :=
    if p.isWeightless then (min least 1, some (min (most.getD 1) 1)) else (least, most)
  match least, most with
  | 0, some 0 => .empty
  | 1, some 1 => p
  | _, _ => .times p least most lazy

/-! ## Sequences -/

/-- The parts of a sequence. -/
def parts : Pattern → List Pattern
  | .empty => []
  | .seq p q => p :: q.parts
  | p => [p]

/-- Put a part before others. Neighbouring literals become one. -/
def joinPart : Pattern → List Pattern → List Pattern
  | .literal cs, .literal ds :: rest => .literal (cs ++ ds) :: rest
  | p, rest => p :: rest

def nestParts : List Pattern → Pattern
  | [] => .empty
  | [p] => p
  | p :: ps => .seq p (nestParts ps)

/-- One pattern after the other. -/
def ofParts (ps : List Pattern) : Pattern := nestParts ((ps.flatMap parts).foldr joinPart [])

/-! ## Choices -/

def choices : Pattern → List Pattern
  | .either p q => p :: q.choices
  | p => [p]

def nestChoices : List Pattern → Pattern
  | [] => .set .none
  | [p] => p
  | p :: ps => .either p (nestChoices ps)

def set? : Pattern → Option CharSet
  | .set s => some s
  | _ => none

/-- The set of a pattern that is a single character. -/
def characterSet? : Pattern → Option CharSet
  | .literal [c] => some (.single c)
  | _ => none

/-- Choices between characters, or between sets, as one set. -/
def mergedSets? (ps : List Pattern) : Option CharSet :=
  ((ps.mapM characterSet?).or (ps.mapM set?)).map CharSet.unionAll

/-- What two lists start with alike. -/
def commonStart : List Pattern → List Pattern → List Pattern
  | p :: ps, q :: qs => if p = q then p :: commonStart ps qs else []
  | _, _ => []

/-- The parts that all of some patterns start with, when all of them are sequences. -/
def sharedParts (ps : List Pattern) : List Pattern :=
  match ps.map parts with
  | first :: others =>
    if (first :: others).all (1 < ·.length) then others.foldl commonStart first else []
  | [] => []

/-- Flat choices, of which not all start alike. -/
def ofFlatChoices (ps : List Pattern) : Pattern :=
  match mergedSets? ps with
  | some s => ofSet s
  | none => nestChoices ps

/-- Any of some patterns. -/
def ofChoices (ps : List Pattern) : Pattern :=
  match ps.flatMap choices with
  | [p] => p
  | ps =>
    match sharedParts ps with
    | [] => ofFlatChoices ps
    | shared =>
      -- what follows cannot start alike again
      let rests := ps.map fun p => ofParts (p.parts.drop shared.length)
      ofParts (shared ++ [ofFlatChoices (rests.flatMap choices)])

end CoverageLedger.Pattern
