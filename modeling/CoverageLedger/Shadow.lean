import CoverageLedger.Report.Archive
import CoverageLedger.View

/-!
# Shadow comparison

Some reports are also handed to an `Analyzer`, an engine outside of this library that answers
questions about totals. Its answers are compared with the totals computed here, and differences are
counted; callers get what was computed here in any case, or totals that were known beforehand.

An analyzer has a state of its own, which every call may change. It parses a report when it is first
asked about it; a report that it failed to parse is not handed to it again before the report
changes.
-/

namespace CoverageLedger

/-- An engine that answers questions about totals. Every call may fail. -/
structure Analyzer (σ η : Type) where
  /-- Load an archive, given the slot of every file and the flags of every session. -/
  parse : Table String Nat → String → Table Nat (List String) → σ → Option η × σ
  totals : η → σ → Option Totals × σ
  filtered : η → List String → List String → σ → Option Totals × σ
  /-- The totals of the lines that a diff adds to the second report, taken against the first. -/
  diff : η → η → Diff → σ → Option DiffTotals × σ

/-- Whether a report is watched: a draw from zero up to one falls below the rate. -/
def sampled (rate draw : Binary64) : Bool := draw.lt rate

/-- A report, what is known of it beforehand, and what the analyzer made of it. -/
structure Shadow (η : Type) where
  report : Report
  /-- Whether there is an analyzer that watches the report. -/
  active : Bool
  options : ViewOptions := {}
  known : Option Totals := none
  /-- The totals known for views of some paths and flags. -/
  knownViews : List ((List String × List String) × Totals) := []
  knownDiff : Option DiffTotals := none
  /-- The result of parsing the report, once it was tried. -/
  handle : Option (Option η) := none
  /-- The number of answers that differed. -/
  mismatches : Nat := 0

namespace Shadow

variable {σ η : Type}

/-- The totals known for a view; those that were given last hold. -/
def knownView? (s : Shadow η) (paths flags : List String) : Option Totals :=
  (s.knownViews.reverse.find? fun k => k.1 == (paths, flags)).map Prod.snd

/-- The handle of the report, which is parsed when that was not tried yet. -/
def open? (a : Analyzer σ η) (s : Shadow η) (w : σ) : Option η × Shadow η × σ :=
  if !s.active then (none, s, w)
  else
    match s.handle with
    | some handle => (handle, s, w)
    | none =>
      let slots := s.report.files.map fun _ e => e.slot
      let flags := s.report.sessions.map fun _ session => session.flags
      -- a failure is remembered as well
      let (handle, w) := a.parse slots (s.report.archive false) flags w
      (handle, { s with handle := some handle }, w)

/-- Whether two totals agree in what an analyzer is compared by. -/
def agree (a b : Totals) : Bool := a.files == b.files && a.coverage == b.coverage

/-- Compare an answer with what was computed. A call that failed does not count. -/
def compare (s : Shadow η) (answer : Option Totals) (computed : Totals) : Shadow η :=
  if answer.any fun t => !agree t computed then { s with mismatches := s.mismatches + 1 } else s

/-- Ask the analyzer about the report, if it has a handle, and compare its answer. -/
def check (a : Analyzer σ η) (question : η → σ → Option Totals × σ) (computed : Totals)
    (s : Shadow η) (w : σ) : Shadow η × σ :=
  match open? a s w with
  | (some handle, s, w) =>
    let (answer, w) := question handle w
    (s.compare answer computed, w)
  | (none, s, w) => (s, w)

def totals (a : Analyzer σ η) (s : Shadow η) (w : σ) : Totals × Shadow η × σ :=
  match s.known with
  | some t => (t, s, w)
  | none =>
    let (t, report) := s.report.totals
    (t, check a a.totals t { s with report } w)

/-- The totals of a view of the report. -/
def filteredTotals [PatternLanguage] (a : Analyzer σ η) (paths flags : List String)
    (s : Shadow η) (w : σ) : Result (Totals × Shadow η × σ) :=
  if paths.isEmpty && flags.isEmpty then .ok (totals a s w)
  else
    match s.knownView? paths flags with
    | some t => .ok (t, s, w)
    | none => do
      let whole : View := { report := s.report, options := s.options }
      let v ← whole.narrow paths flags
      let t := v.totals
      let s := { s with report := v.afterTotals.report }
      return (t, check a (fun handle => a.filtered handle paths flags) t s w)

/-- The question about a diff between two reports. -/
def diffQuestion (a : Analyzer σ η) (d : Diff) (base head : η) (w : σ) : Option Totals × σ :=
  let (answer, w) := a.diff base head d w
  (answer.map (·.totals), w)

/-- The totals of the lines that a diff adds, the report being both sides of the diff. -/
def calculateDiff (a : Analyzer σ η) (d : Diff) (s : Shadow η) (w : σ) :
    DiffTotals × Shadow η × σ :=
  match s.knownDiff with
  | some t => (t, s, w)
  | none =>
    let (t, report) := s.report.calculateDiff d
    (t, check a (fun handle => diffQuestion a d handle handle) t.totals { s with report } w)

/-- The totals of the lines that a diff adds, taken against another report. The analyzer is asked
when it has handles of both. -/
def calculateDiffAgainst (a : Analyzer σ η) (d : Diff) (s base : Shadow η) (w : σ) :
    DiffTotals × Shadow η × Shadow η × σ :=
  match s.knownDiff with
  | some t => (t, s, base, w)
  | none =>
    let (t, report) := s.report.calculateDiff d
    match open? a { s with report } w with
    | (none, s, w) => (t, s, base, w)
    | (some head, s, w) =>
      match open? a base w with
      | (none, base, w) => (t, s, base, w)
      | (some other, base, w) =>
        let (answer, w) := diffQuestion a d other head w
        (t, s.compare answer t.totals, base, w)

/-- Compute the totals of a diff and store them in the diff and in the manifest. A diff without
files is left alone. -/
def applyDiff (a : Analyzer σ η) (d : Diff) (s : Shadow η) (w : σ) :
    Option Totals × Diff × Shadow η × σ :=
  if d.files.isEmpty then (none, d, s, w)
  else
    let (t, s, w) := calculateDiff a d s w
    (some t.totals, d.withFileTotals t, { s with report := s.report.withDiffTotals t }, w)

/-- Add a file. When that changes the report, nothing that was known before holds any longer. -/
def append (f : SourceFile) (joined : Bool) (s : Shadow η) : Bool × Shadow η :=
  match s.report.append f joined with
  | (true, report) =>
    (true, { s with report, known := none, knownViews := [], knownDiff := none, handle := none })
  | (false, report) => (false, { s with report })

end Shadow

end CoverageLedger
