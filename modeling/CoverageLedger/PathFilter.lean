import CoverageLedger.Error

/-!
# Path filters

A `PathFilter` chooses paths by patterns that match at the start of a path. A pattern after an
exclamation mark excludes; every exclamation mark in it is dropped before it is read. A path that is
spelled like one of the patterns is always chosen, and a filter without patterns chooses every path.

Which texts are patterns and what they match is not decided here: filters, and all that is done with
them, take a `PatternLanguage` for it.
-/

namespace CoverageLedger

/-- A language of patterns. -/
class PatternLanguage where
  /-- Whether a pattern matches somewhere in a text; nothing for a text that is no pattern. -/
  matcher? (pattern : String) : Option (String → Bool)

structure PathFilter where
  /-- The patterns as they were given, ascending and without repetition. -/
  texts : List String := []
  inclusions : List (String → Bool) := []
  exclusions : List (String → Bool) := []

namespace PathFilter

/-- The mark of a pattern that excludes. -/
def exclusionMark : Char := '!'

def excludes (text : String) : Bool := text.toList.head? == some exclusionMark

/-- A pattern without the marks of an exclusion. -/
def unmarked (text : String) : String :=
  if excludes text then String.ofList (text.toList.filter (· != exclusionMark)) else text

/-- Whether a path matches a pattern at its start; nothing for a pattern that cannot be read. -/
def matcher? [PatternLanguage] (text : String) : Option (String → Bool) :=
  PatternLanguage.matcher? ("^(?:" ++ unmarked text ++ ")")

def read? [PatternLanguage] (text : String) : Result (String → Bool) :=
  match matcher? text with
  | some m => .ok m
  | none => .error .pattern

/-- The patterns that count: empty ones are left out. -/
def given (patterns : List String) : List String := ascend (patterns.filter (!·.isEmpty))

/-- The filter of some patterns. -/
def ofPatterns? [PatternLanguage] (patterns : List String) : Result PathFilter := do
  let texts := given patterns
  return {
    texts
    inclusions := ← (texts.filter (!excludes ·)).mapM read?
    exclusions := ← (texts.filter excludes).mapM read? }

/-- A filter without patterns chooses every path. -/
def isEmpty (f : PathFilter) : Bool := f.texts.isEmpty

def chooses (f : PathFilter) (path : String) : Bool :=
  f.texts.isEmpty || f.texts.contains path ||
    (!(f.exclusions.any (· path)) && (f.inclusions.isEmpty || f.inclusions.any (· path)))

/-- Whether any of some paths is chosen. -/
def choosesAny (f : PathFilter) (paths : List String) : Bool := paths.any f.chooses

end PathFilter

end CoverageLedger
