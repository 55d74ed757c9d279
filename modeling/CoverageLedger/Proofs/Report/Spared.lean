import CoverageLedger.Proofs.Report.Append
import CoverageLedger.Proofs.Report.Deletion

/-!
# Lines that a deletion of sessions spares

A line with no session and no datapoint among those that go stays under its number, with all that is
known about it.  Its reading and its complexity stay too when they are those that its sessions give;
in a file that loses a session they are counted anew from them, whatever they were
(`deleteSessions_spares`, `uncounted_reading_counted`).
-/

namespace CoverageLedger

/-! ## 1. One line -/

namespace Line

variable {ids : List Nat} {l : Line}

/-- The reading and the complexity of a line are those that its sessions give, if it has any. -/
def Derived (l : Line) : Prop :=
  l.sessions ≠ [] → l.reading = LineSession.readingOf l.sessions ∧
    l.complexity = LineSession.complexityOf l.sessions

/-- A line with the reading and the complexity that its sessions give, if it has any. -/
def recounted (l : Line) : Line :=
  if l.sessions = [] then l
  else { l with
    reading := LineSession.readingOf l.sessions
    complexity := LineSession.complexityOf l.sessions }

theorem Derived.recounted_eq (h : l.Derived) : l.recounted = l := by
  rw [recounted]
  split
  · rfl
  · rename_i hne
    obtain ⟨hreading, hcomplexity⟩ := h hne
    rw [← hreading, ← hcomplexity]

theorem datapointsWithout_eq_self (h : ¬ l.HasDatapointOf ids) :
    l.datapointsWithout ids = l.datapoints := by
  rw [datapointsWithout]
  cases hds : l.datapoints with
  | none => rfl
  | some ds =>
    rw [Option.map_some, List.filter_eq_self.2 fun d hd => ?_]
    rw [Bool.not_eq_true', List.contains_eq_mem, decide_eq_false_iff_not]
    exact fun hin => h ⟨ds, hds, d, hd, hin⟩

/-- A deletion that takes nothing from a line counts it anew. -/
theorem withoutSessions_eq_recounted (hsessions : ∀ s ∈ l.sessions, s.id ∉ ids)
    (hdatapoints : ¬ l.HasDatapointOf ids) : l.withoutSessions ids = some l.recounted := by
  have hkept : l.datapointsWithout ids = l.datapoints := datapointsWithout_eq_self hdatapoints
  have hleft : (l.sessions.filter fun s => !ids.contains s.id) = l.sessions := by
    refine List.filter_eq_self.2 fun s hs => ?_
    simpa using hsessions s hs
  by_cases hempty : l.sessions = []
  · rw [withoutSessions_of_sessions_nil hempty, hkept, recounted, if_pos hempty]
  · rw [withoutSessions_of_sessions_ne hempty, hleft, hkept, recounted, if_neg hempty,
      if_neg (by simpa using hempty)]

end Line

/-! ## 2. The report -/

namespace Report

variable {ids : List Nat} {r : Report} {name : String} {n : Nat} {f : SourceFile} {l : Line}

/-- What is left under a number of a file, whatever sessions go. -/
theorem lineAt?_deleteSessions_of_file? (hf : r.file? name = some f) :
    (r.deleteSessions ids).lineAt? name n = (f.withoutSessions ids).lines.get? n := by
  have hlines := lines_deleteSessions ids r name
  rw [hf, Option.bind_some] at hlines
  rw [lineAt?]
  split at hlines
  · rename_i hempty
    rw [Option.map_eq_none_iff.1 hlines, (Table.isEmpty_iff _).1 hempty.2 n]
    rfl
  · obtain ⟨g, hg, hpair⟩ := Option.map_eq_some_iff.1 hlines
    rw [hg, Option.bind_some, (Prod.mk.inj hpair).1]

/-- **What a deletion of sessions spares**, in any report.  A line that none of the sessions has a
reading or a datapoint on stays under its number.  When its file loses a session it is counted anew,
which leaves it as it was when that gives what it had. -/
theorem deleteSessions_spares (ids : List Nat) (hf : r.file? name = some f)
    (hl : f.lines.get? n = some l) (hsessions : ∀ s ∈ l.sessions, s.id ∉ ids)
    (hdatapoints : ¬ l.HasDatapointOf ids) :
    (r.deleteSessions ids).lineAt? name n =
        some (if f.hasAnySession ids then l.recounted else l) ∧
      (f.hasAnySession ids = false ∨ l.Derived → (r.deleteSessions ids).lineAt? name n = some l) := by
  have hline : (r.deleteSessions ids).lineAt? name n =
      some (if f.hasAnySession ids then l.recounted else l) := by
    rw [lineAt?_deleteSessions_of_file? hf, SourceFile.get?_withoutSessions, hl, Option.bind_some,
      Line.withoutSessions_eq_recounted hsessions hdatapoints]
    split <;> rfl
  refine ⟨hline, fun hsame => ?_⟩
  rw [hline]
  rcases hsame with hany | hderived
  · rw [hany, if_neg Bool.false_ne_true]
  · rw [hderived.recounted_eq, ite_self]

/-! A line that was missed first, and that another session has run since, is not joined but only
completed: it keeps its reading. -/

/-- Two lines, each read by a session of its own. -/
def missedFile : SourceFile :=
  { name := "a"
    content := .lines <| .ofList
      [(1, .ofSession { id := 0, reading := .miss }),
        (2, .ofSession { id := 2, reading := .hit .one })] }

/-- The first of them, run by one more session. -/
def runFile : SourceFile :=
  { name := "a", content := .lines (.ofList [(1, .ofSession { id := 1, reading := .hit .one })]) }

def completedReport : Report :=
  ((((((({} : Report).addSession {}).2.addSession {}).2).addSession {}).2.append missedFile).2.append
    runFile false).2

/-- What the completed report has in line 1. -/
def completedLine : Line :=
  { reading := .miss
    sessions := [{ id := 0, reading := .miss }, { id := 1, reading := .hit .one }] }

/-- The second line stays as it is when a session of the first one goes from the file. -/
theorem deleteSessions_spares_completed :
    let line : Line := .ofSession { id := 2, reading := .hit .one }
    ∃ f, completedReport.file? "a" = some f ∧ f.hasAnySession [0] = true ∧
      f.lines.get? 2 = some line ∧ (∀ s ∈ line.sessions, s.id ∉ [0]) ∧
      ¬ line.HasDatapointOf [0] ∧ line.Derived ∧
      (completedReport.deleteSessions [0]).lineAt? "a" 2 = some line := by
  intro line
  have hsessions : ∀ s ∈ line.sessions, s.id ∉ [0] := by decide
  have hdatapoints : ¬ line.HasDatapointOf [0] := by
    rintro ⟨ds, hds, -⟩
    cases hds
  have hderived : line.Derived := fun _ => ⟨rfl, rfl⟩
  obtain ⟨f, hf, hany, hl⟩ : ∃ f, completedReport.file? "a" = some f ∧
      f.hasAnySession [0] = true ∧ f.lines.get? 2 = some line := ⟨_, rfl, rfl, rfl⟩
  obtain ⟨-, hsame⟩ := deleteSessions_spares [0] hf hl hsessions hdatapoints
  exact ⟨f, hf, hany, hl, hsessions, hdatapoints, hderived, hsame (.inr hderived)⟩

/-- Line 1 has neither a session nor a datapoint of session 2, and it is a miss until that session
goes from the line after it. -/
theorem uncounted_reading_counted :
    completedReport.lineAt? "a" 1 = some completedLine ∧
    (∀ s ∈ completedLine.sessions, s.id ∉ [2]) ∧ ¬ completedLine.HasDatapointOf [2] ∧
    (completedReport.deleteSessions [2]).lineAt? "a" 1 =
      some { completedLine with reading := .hit .one } := by
  refine ⟨rfl, by decide, ?_, rfl⟩
  rintro ⟨ds, hds, -⟩
  cases hds

end Report

end CoverageLedger
