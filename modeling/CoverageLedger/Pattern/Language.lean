import CoverageLedger.PathFilter
import CoverageLedger.Pattern.Reader

/-!
# The language that the program reads

The `PatternLanguage` that the program runs with. A text that asks for the characters with some
property by name, after `\p` or `\P`, is no pattern of this language. Nothing that is proved of
filters, views and reports depends on the choice: it is a parameter there.
-/

namespace CoverageLedger

instance Pattern.language : PatternLanguage where
  matcher? text := (ofText? text).map matchesText

end CoverageLedger
