import CoverageLedger.Text.Word

/-!
# Patterns

A `Pattern` is a regular expression over characters. Its meaning is a relation between positions of
a text: `Pattern.reach` gives the positions where a match can end that starts at one of some
positions, and `Pattern.matchesText` asks whether there is any match in a text.

Positions are counted from zero, so that a text of n characters has n + 1 of them. As only the
existence of a match matters, neither greed nor groups make a difference to it. They are part of a
pattern as they tell two patterns apart, and so have a say in what the simplest form of one is.
-/

namespace CoverageLedger

/-- A condition on whether there is a word character before and after a position. -/
inductive WordEdge where
  /-- On one side only. -/
  | boundary
  | noBoundary
  | wordStart
  | wordEnd
  /-- No word character before. -/
  | startHalf
  /-- No word character after. -/
  | endHalf
  deriving DecidableEq, Repr

inductive Anchor where
  | textStart
  | textEnd
  /-- The start of a line. With `returns`, a carriage return ends a line as well. -/
  | lineStart (returns : Bool)
  | lineEnd (returns : Bool)
  /-- A condition on the words around the position. With `ascii`, only the first 128 characters can
  be word characters. -/
  | word (edge : WordEdge) (ascii : Bool)
  deriving DecidableEq, Repr

inductive Pattern where
  | empty
  /-- Some characters one after the other. -/
  | literal (cs : List Char)
  /-- One character out of a set. -/
  | set (s : CharSet)
  | anchor (a : Anchor)
  /-- A numbered group. -/
  | group (number : Nat) (p : Pattern)
  | seq (p q : Pattern)
  | either (p q : Pattern)
  /-- At least `least` and at most `most` times, or any number of times from `least` on, trying few
  before many when it is `lazy`. -/
  | times (p : Pattern) (least : Nat) (most : Option Nat) (lazy : Bool)
  deriving DecidableEq, Repr

/-- Whether the condition holds, given the two sides. -/
def WordEdge.holds (before after : Bool) : WordEdge → Bool
  | .boundary => before != after
  | .noBoundary => before == after
  | .wordStart => !before && after
  | .wordEnd => before && !after
  | .startHalf => !before
  | .endHalf => !after

/-- Whether the position between two characters, which may be missing, satisfies a condition. -/
def Anchor.holds (before after : Option Char) : Anchor → Bool
  | .textStart => before.isNone
  | .textEnd => after.isNone
  | .lineStart false => before.isNone || before == some '\n'
  | .lineStart true =>
    before.isNone || before == some '\n' || (before == some '\r' && after != some '\n')
  | .lineEnd false => after.isNone || after == some '\n'
  | .lineEnd true =>
    after.isNone || after == some '\r' || (after == some '\n' && before != some '\r')
  | .word edge ascii =>
    let set := if ascii then Text.asciiWordCharacters else Text.wordCharacters
    edge.holds (before.any set.contains) (after.any set.contains)

namespace Pattern

def before? (text : Array Char) (i : Nat) : Option Char := if i = 0 then none else text[i - 1]?

/-- Whether characters stand in a text from a position on. -/
def standsAt (text : Array Char) : List Char → Nat → Bool
  | [], _ => true
  | c :: cs, i => text[i]? == some c && standsAt text cs (i + 1)

def repeated {α : Type} (f : α → α) : Nat → α → α
  | 0, a => a
  | n + 1, a => repeated f n (f a)

/-- The positions in either of two ascending lists, ascending. -/
def union : List Nat → List Nat → List Nat
  | [], l => l
  | l, [] => l
  | i :: is, j :: js =>
    if i < j then i :: union is (j :: js)
    else if j < i then j :: union (i :: is) js
    else i :: union is js
termination_by a b => a.length + b.length

/-- Mark positions. -/
def mark (marks : Array Bool) (l : List Nat) : Array Bool :=
  l.foldl (fun marks i => marks.setIfInBounds i true) marks

/-- The marked positions, ascending. -/
def marked (marks : Array Bool) : List Nat :=
  (List.range marks.size).filter fun i => marks.getD i false

/-- Mark the positions that are reached in at most so many steps from those marked last. A step that
reaches nothing new is the last one. -/
def spread (f : List Nat → List Nat) : Nat → Array Bool → List Nat → Array Bool
  | 0, marks, _ => marks
  | n + 1, marks, last =>
    match (f last).filter fun i => !marks.getD i true with
    | [] => marks
    | fresh => spread f n (mark marks fresh) fresh

/-- The positions reached from some positions in at most so many steps. -/
def within (positions : Nat) (f : List Nat → List Nat) (steps : Nat) (starts : List Nat) :
    List Nat :=
  if steps = 0 then starts
  else marked (spread f steps (mark (Array.replicate positions false) starts) starts)

/-- The positions where a match can end that starts at one of some ascending positions, ascending.
No more steps than there are positions are needed: a longer way stays in one place at some point,
and can do so once more or once less. -/
def reach (text : Array Char) : Pattern → List Nat → List Nat
  | .empty, starts => starts
  | .literal cs, starts => (starts.filter (standsAt text cs)).map (· + cs.length)
  | .set s, starts => (starts.filter fun i => text[i]?.any s.contains).map (· + 1)
  | .anchor a, starts => starts.filter fun i => a.holds (before? text i) text[i]?
  | .group _ p, starts => reach text p starts
  | .seq p q, starts => reach text q (reach text p starts)
  | .either p q, starts => union (reach text p starts) (reach text q starts)
  | .times p least most _, starts =>
    -- bounds above the number of positions mean the same as that number
    let positions := text.size + 1
    let steps := match most with
      | some most => min (most - least) positions
      | none => positions
    within positions (reach text p) steps (repeated (reach text p) (min least positions) starts)

/-- Whether a pattern matches somewhere in a text. -/
def matchesText (p : Pattern) (text : String) : Bool :=
  let chars := text.toList.toArray
  !(p.reach chars (List.range (chars.size + 1))).isEmpty

end Pattern

end CoverageLedger
