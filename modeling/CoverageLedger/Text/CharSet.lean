/-!
# Sets of characters

A `CharSet` is a set of characters by the numbers at which membership changes. Every set operation
is `CharSet.combine` with a truth table, and gives the changes that are needed and no others, so that
equal sets are equal values. The numbers between `0xD800` and `0xDFFF` belong to no character.
-/

namespace CoverageLedger

/-- A set of characters. Numbers below the first bound are outside of it, those from there to the
second bound inside, and so on. -/
structure CharSet where
  bounds : List Nat
  deriving DecidableEq, Repr

namespace CharSet

/-- Whether a number is inside, when `inside` holds below the first of some bounds. -/
def insideAt (inside : Bool) (n : Nat) : List Nat → Bool
  | [] => inside
  | b :: bs => if n < b then inside else insideAt (!inside) n bs

/-- Whether the character of a number is in a set. -/
def holds (s : CharSet) (n : Nat) : Bool := insideAt false n s.bounds

/-- Whether a character is in a set. -/
def contains (s : CharSet) (c : Char) : Bool := s.holds c.toNat

/-- A bound, unless nothing changes there. -/
def changeAt (n : Nat) (before after : Bool) (rest : List Nat) : List Nat :=
  if before == after then rest else n :: rest

/-- The bounds of a combination of two sets, which hold below their first bounds as given. -/
def combineBounds (op : Bool → Bool → Bool) (x y : Bool) : List Nat → List Nat → List Nat
  | [], [] => []
  | a :: as, [] => changeAt a (op x y) (op (!x) y) (combineBounds op (!x) y as [])
  | [], b :: bs => changeAt b (op x y) (op x (!y)) (combineBounds op x (!y) [] bs)
  | a :: as, b :: bs =>
    if a < b then changeAt a (op x y) (op (!x) y) (combineBounds op (!x) y as (b :: bs))
    else if b < a then changeAt b (op x y) (op x (!y)) (combineBounds op x (!y) (a :: as) bs)
    else changeAt a (op x y) (op (!x) (!y)) (combineBounds op (!x) (!y) as bs)
termination_by as bs => as.length + bs.length

/-- The characters whose membership in two sets satisfies a truth table. The table is false for
characters that are in neither. -/
def combine (op : Bool → Bool → Bool) (s t : CharSet) : CharSet :=
  ⟨combineBounds op false false s.bounds t.bounds⟩

/-- The set of ascending ranges, which hold both of their ends and have gaps between them. -/
def ofRanges (ranges : List (Nat × Nat)) : CharSet :=
  ⟨ranges.flatMap fun (first, last) => [first, last + 1]⟩

/-- The ascending ranges of a set. -/
def ranges (s : CharSet) : List (Nat × Nat) := go s.bounds
where
  go : List Nat → List (Nat × Nat)
    | first :: after :: rest => (first, after - 1) :: go rest
    | _ => []

def none : CharSet := ⟨[]⟩

def all : CharSet := .ofRanges [(0, 0xD7FF), (0xE000, 0x10FFFF)]

def union (s t : CharSet) : CharSet := s.combine (· || ·) t

def complement (s : CharSet) : CharSet := s.combine (fun a b => b && !a) all

def between (first last : Char) : CharSet :=
  (ofRanges [(first.toNat, last.toNat)]).combine (· && ·) all

def single (c : Char) : CharSet := between c c

def unionAll (sets : List CharSet) : CharSet := sets.foldl union none

/-- The only character of a set, if it has one. -/
def only? (s : CharSet) : Option Char :=
  match s.ranges with
  | [(first, last)] => if first = last then some (Char.ofNat first) else Option.none
  | _ => Option.none

def isEmpty (s : CharSet) : Bool := s.bounds.isEmpty

/-- Whether all characters of a set are among the first 128. -/
def isAscii (s : CharSet) : Bool := s.bounds.all (· ≤ 128)

end CharSet

end CoverageLedger
