import CoverageLedger.Pattern.Simplest
import CoverageLedger.Text.ByteRange
import Std.Data.HashMap

/-!
# The footprint of a pattern

A pattern is run by an automaton over the bytes of a text: once forward, and once backward from
where a match ends. `Footprint` counts the memory that such an automaton takes. Every state takes
the same space; states that choose between ranges of bytes, or between ways to go on, take more for
each of them. Repetitions are written out.

A set of characters beyond the first 128 is a tree over bytes, and equal states of it are shared. A
state is found again by a slot that its hash chooses, and a slot remembers the last state that was
put into it. So how much is shared depends on the numbers of the states, and `Footprint` has to
follow the order in which states are added.
-/

namespace CoverageLedger

/-- The memory of an automaton that is being built. -/
structure Footprint where
  states : Nat := 0
  /-- The bytes taken by ranges and ways. -/
  extra : Nat := 0

namespace Footprint

/-- The direction in which an automaton reads. -/
inductive Direction where
  | forward
  | backward
  deriving DecidableEq, Repr

/-! ## Sizes in bytes -/

def stateSize : Nat := 32

/-- The size of a range of bytes in a state that chooses by the next byte. -/
def rangeSize : Nat := 8

/-- The size of a way in a state that has several ways to go on. -/
def waySize : Nat := 4

/-- The size of the largest automaton. -/
def greatestSize : Nat := 10 * 1024 * 1024

def size (f : Footprint) : Nat := f.states * stateSize + f.extra

/-! ## States -/

/-- Something that adds to an automaton, unless it gets too large. -/
abbrev Growth := Footprint → Option Footprint

/-- Add states, and bytes that they take besides their own size. -/
def grow? (states extra : Nat) : Growth := fun f =>
  let f : Footprint := { states := f.states + states, extra := f.extra + extra }
  if f.size ≤ greatestSize then some f else none

/-- One state without a choice. -/
def step? : Growth := grow? 1 0

/-- One state with so many ways to go on. -/
def fork? (ways : Nat) : Growth := grow? 1 (ways * waySize)

/-- Grow so many times. -/
def repeat? (growth : Growth) : Nat → Growth
  | 0, f => some f
  | n + 1, f =>
    match growth f with
    | some f => repeat? growth n f
    | none => none

/-! ## Choices between words -/

/-- The words from one end of a word to the next, and how often words end between them. A word that
ends where none has gone on counts once. -/
structure WordRuns where
  runs : List (List (List UInt8)) := []
  ends : Nat := 0

/-- Add a word: to the last run, or as an end, after which a new run starts. -/
def WordRuns.add (r : WordRuns) : List UInt8 → WordRuns
  | [] =>
    if r.runs.isEmpty then { r with ends := 1 } else { runs := [] :: r.runs, ends := r.ends + 1 }
  | word =>
    match r.runs with
    | [] => { r with runs := [[word]] }
    | run :: runs => { r with runs := (word :: run) :: runs }

/-- The rests of the words that start with a byte. -/
def restsAfter (b : UInt8) (words : List (List UInt8)) : List (List UInt8) :=
  words.filterMap fun
    | c :: rest => if c = b then some rest else none
    | [] => none

/-- Add the states of a choice between words that go on after what they have in common: of every run
one for its first bytes, and one that chooses between runs and ends. `fuel` is more than the length
of the words. -/
def words? : Nat → List (List UInt8) → Growth
  | 0, _, f => some f
  | fuel + 1, words, f =>
    if words.all (·.isEmpty) then some f
    else do
      let split := words.foldl WordRuns.add {}
      let runs := (split.runs.filter (!·.isEmpty)).map List.reverse
      let f ← runs.foldlM (fun f run => do
        let firsts := (run.filterMap List.head?).eraseDups
        let f ← firsts.foldlM (fun f b => words? fuel (restsAfter b run) f) f
        if firsts.length = 1 then step? f else grow? 1 (firsts.length * rangeSize) f) f
      fork? (split.ends + runs.length) f

/-- The bytes of characters in the order in which they are read. -/
def bytesOf (d : Direction) (cs : List Char) : List UInt8 :=
  let bytes := cs.flatMap String.utf8EncodeChar
  match d with
  | .forward => bytes
  | .backward => bytes.reverse

/-- The words of a pattern, when it is nothing but a choice between words. -/
def words (d : Direction) (p : Pattern) : Option (List (List UInt8)) :=
  p.choices.mapM fun
    | .literal cs => some (bytesOf d cs)
    | _ => none

/-! ## Sets -/

/-- States that can be shared, by slot: what a state was made of, and its number. -/
structure Shared where
  slotCount : UInt64
  slots : Std.HashMap UInt64 (List Nat × Nat) := {}

/-- The hash of some numbers: every number is mixed in by an exclusive or and a multiplication. -/
def hash (numbers : List Nat) : UInt64 :=
  numbers.foldl (fun h n => (h ^^^ n.toUInt64) * 1099511628211) 14695981039346656037

/-- The number of the state that is made of some numbers. It is added unless its slot still holds
it. -/
def shared? (key : List Nat) (extra : Nat) (known : Shared) (f : Footprint) :
    Option (Nat × Shared × Footprint) :=
  let slot := hash key % known.slotCount
  match known.slots[slot]? with
  | some (key', state) => if key' = key then some (state, known, f) else add slot
  | none => add slot
where
  add (slot : UInt64) := (grow? 1 extra f).map fun g =>
    (f.states, { known with slots := known.slots.insert slot (key, f.states) }, g)

/-- The state that reads any of some sequences of at most so many bytes and then goes on to
`target`. -/
def tree? (target : Nat) : Nat → List (List ByteRange) → Shared → Footprint →
    Option (Nat × Shared × Footprint)
  | 0, _, known, f => some (target, known, f)
  | length + 1, sequences, known, f =>
    if sequences.all (·.isEmpty) then some (target, known, f)
    else do
      let groups := sequences.splitBy fun s t => s.head? == t.head?
      let (key, known, f) ← groups.foldlM (fun (key, known, f) group => do
        let (next, known, f) ← tree? target length (group.map List.tail) known f
        let some first := group.head?.bind List.head? | none
        return (next :: first.last.toNat :: first.first.toNat :: key, known, f)) ([], known, f)
      shared? key.reverse (groups.length * rangeSize) known f

/-- Add the states that read one of some sequences of bytes forward. -/
def setForward? (sequences : List (List ByteRange)) : Growth := fun f => do
  let (_, _, g) ← tree? f.states 4 sequences { slotCount := 10000 } (← step? f)
  return g

/-- Add the states that read one of some sequences of bytes backward, with a way to each of the
sequences. States are shared from the first byte on, which is read last. -/
def setBackward? (sequences : List (List ByteRange)) : Growth := fun f => do
  let last := f.states + 1
  let (_, f) ← sequences.foldlM (fun (known, f) sequence => do
    let (_, known, f) ← sequence.foldlM (fun (next, known, f) r =>
      shared? [next, r.first.toNat, r.last.toNat] 0 known f) (last, known, f)
    return (known, ← grow? 0 waySize f)) ({ slotCount := 1000 : Shared }, ← grow? 2 0 f)
  return f

/-- Add the states that read one character out of a set. The first 128 characters are bytes. -/
def set? (d : Direction) (s : CharSet) : Growth :=
  if s.isAscii then grow? 2 (s.ranges.length * rangeSize)
  else
    match d with
    | .forward => setForward? s.byteRanges
    | .backward => setBackward? s.byteRanges

/-! ## Patterns -/

/-- Where a pattern stands among choices. -/
inductive Place where
  | alone
  | second
  | later

def Place.next : Place → Place
  | .alone => .second
  | _ => .later

/-- What comes after a choice: the second one brings the state that chooses and the one where all
choices end, and every later one a way to it. -/
def Place.close? : Place → Growth
  | .alone => some
  | .second => grow? 2 (2 * waySize)
  | .later => grow? 0 waySize

/-- Add the states of a pattern. -/
def pattern? (d : Direction) : Pattern → Place → Growth
  | .empty, place, f | .anchor _, place, f => do place.close? (← step? f)
  | .literal cs, place, f => do place.close? (← grow? (bytesOf d cs).length 0 f)
  | .set s, place, f => do place.close? (← set? d s f)
  | .group _ p, place, f => do
    match d with
    | .forward => place.close? (← step? (← pattern? d p .alone (← step? f)))
    -- backward, groups are not told
    | .backward => place.close? (← pattern? d p .alone f)
  | .seq p q, place, f => do
    match d with
    | .forward => place.close? (← pattern? d q .alone (← pattern? d p .alone f))
    | .backward => place.close? (← pattern? d p .alone (← pattern? d q .alone f))
  | .either p q, place, f => do
    match place, words d (.either p q) with
    | .alone, some words =>
      let fuel := (words.map List.length).foldl max 0 + 1
      words? fuel words (← step? f)
    | _, _ => pattern? d q place.next (← place.close? (← pattern? d p .alone f))
  | .times p least most _, place, f => do
    let once := pattern? d p .alone
    place.close? <| ← match least, most with
      | 0, some 1 => do step? (← once (← fork? 2 f))
      | 0, none => do
        if p.consumes then once (← fork? 2 f)
        else step? (← fork? 2 (← fork? 2 (← once f)))
      | least, none => do fork? 2 (← repeat? once least f)
      | least, some most => do
        let f ← if least = 0 then step? f else repeat? once least f
        if least = most then some f
        else repeat? (fun f => do once (← fork? 2 f)) (most - least) (← step? f)

/-- The footprint of the automaton that looks for a pattern anywhere. Where a match has to be at the
end where reading starts, nothing can come before it. -/
def ofPattern? (d : Direction) (p : Pattern) : Option Footprint := do
  let start? : Growth :=
    if (match d with | .forward => p.atTextStart | .backward => p.atTextEnd) then step?
    else grow? 3 (rangeSize + 2 * waySize)
  -- the whole match is a group, and the last state accepts it
  step? (← pattern? d (.group 0 p) .alone (← start? {}))

/-- Whether a pattern can be run in both directions. -/
def fits (p : Pattern) : Bool :=
  (ofPattern? .forward p).isSome && (ofPattern? .backward p).isSome

end Footprint

end CoverageLedger
