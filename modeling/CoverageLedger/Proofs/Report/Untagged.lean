import CoverageLedger.Proofs.Line.Rederived
import CoverageLedger.Proofs.Report.Reached
import CoverageLedger.Proofs.Upload.Lines
import CoverageLedger.Proofs.Upload.Undone

/-!
# Deleting labels that tag nothing from a report

When no datapoint of some sessions carries some labels, deleting these labels from a report that
joined appends have built keeps every line, and derives its reading anew in the files that one of
the sessions is in (`deleteLabels_untagged`).  Readings that know of branch arms are lost by it, as
datapoints do not say which arms were not taken (`joined_arms_forgotten`).
-/

namespace CoverageLedger

/-! ## 1. One file and one report -/

namespace SourceFile

variable {ids labels : List Nat} {f : SourceFile}

theorem get?_withoutLabels (n : Nat) : (f.withoutLabels ids labels).lines.get? n =
    if f.hasAnySession ids then (f.lines.get? n).bind (Line.withoutLabels ids labels)
    else f.lines.get? n := by
  rw [withoutLabels]
  split
  · rw [deleteLabels, lines_edit, lines_afterSessionIds, Table.get?_filterMap]
  · rw [lines_afterSessionIds]

end SourceFile

namespace Row

/-- The row of a file with lines, counted from them. -/
structure Whole (w : Row) : Prop where
  totals : w.totals = w.file.totals
  stored : w.file.isEmpty = false

variable {w w' : Row} {ids labels : List Nat}

theorem whole_counted {f : SourceFile} (h : f.isEmpty = false) : (counted f).Whole := ⟨rfl, h⟩

theorem Whole.withoutLabels (h : w.Whole) (hw : w.withoutLabels ids labels = some w') : w'.Whole := by
  unfold Row.withoutLabels at hw
  dsimp only at hw
  split at hw
  · split at hw
    · cases hw
    · rename_i hstored
      rw [← Option.some.inj hw]
      exact whole_counted (Bool.eq_false_iff.2 hstored)
  · rename_i hany
    -- a file without the sessions is only asked for its session ids
    have hlines : (w.file.withoutLabels ids labels).lines = w.file.lines := by
      rw [SourceFile.withoutLabels, if_neg hany, SourceFile.lines_afterSessionIds]
    rw [← Option.some.inj hw]
    constructor
    · show w.totals = SourceFile.totals _
      rw [h.totals, SourceFile.totals, SourceFile.totals, hlines]
    · show SourceFile.isEmpty _ = false
      rw [SourceFile.isEmpty, hlines]
      exact h.stored

/-- A file that has lost its last line has none to look up. -/
theorem get?_withoutLabels (w : Row) (n : Nat) :
    ((w.withoutLabels ids labels).bind fun w => w.file.lines.get? n) =
      (w.file.withoutLabels ids labels).lines.get? n := by
  unfold Row.withoutLabels
  dsimp only
  split
  · split
    · rename_i hempty
      exact ((Table.isEmpty_iff _).1 hempty n).symm
    · rfl
  · rfl

end Row

namespace Report

variable {r r' : Report} {ids labels : List Nat} {q : String} {n : Nat} {f : SourceFile} {l : Line}

theorem lineAt?_eq_row (r : Report) (q : String) (n : Nat) :
    r.lineAt? q n = (r.row? q).bind fun w => w.file.lines.get? n := by
  rw [lineAt?]
  cases hf : r.file? q with
  | none => rw [row?_eq_none hf, Option.bind_none, Option.bind_none]
  | some f =>
    obtain ⟨w, hw, rfl⟩ := exists_row? hf
    rw [hw, Option.bind_some, Option.bind_some]

theorem row?_deleteLabels (h : r.Consistent) (hids : ids ≠ []) (hlabels : labels ≠ []) (q : String) :
    (r.deleteLabels ids labels).row? q = (r.row? q).bind (Row.withoutLabels ids labels) := by
  have hone : (ids.isEmpty || labels.isEmpty) = false := by simp [hids, hlabels]
  have hnodup : (r.names.map fun name => name).Nodup := by
    rw [List.map_id']
    exact (Table.keys_ascending _).imp Precedes.ne
  obtain ⟨hconsistent, -, hothers, hnamed⟩ := ActsAt.foldl (deleteLabelsIn ids labels)
    (fun _ => Row.withoutLabels ids labels)
    (fun r name h => actsAt_deleteLabelsIn h ids labels name) hnodup h
  rw [List.map_id'] at hothers
  rw [deleteLabels, hone, if_neg Bool.false_ne_true, row?_changed]
  by_cases hq : q ∈ r.names
  · exact hnamed q hq
  · have hnone : r.row? q = none := by
      refine Option.eq_none_iff_forall_ne_some.2 fun w hw => hq ?_
      exact h.mem_names_iff.2 ⟨w.file, file?_of_row? hw⟩
    rw [hothers q hq, hnone]
    rfl

/-- What is known of a report whose totals can be told from its lines. -/
structure Whole (r : Report) : Prop where
  rows : Each (fun _ w => w.Whole) r
  keeps : r.KeepsTotals

theorem Each.append_whole (h : Each (fun _ w => w.Whole) r) (f : SourceFile) (joined : Bool) :
    Each (fun _ w => w.Whole) (r.append f joined).2 := by
  by_cases hempty : f.isEmpty = true
  · rw [append_of_isEmpty hempty]
    exact h
  · refine h.append f joined (Row.whole_counted (Bool.eq_false_iff.2 hempty)) fun w hw => ?_
    exact Row.whole_counted (SourceFile.isEmpty_mergeLines hw.stored f.lines)

theorem Each.addTraced_whole {files : List TracedFile} {names : List String} {id : Nat}
    (h : Each (fun _ w => w.Whole) r) (hok : Report.addTraced id r files = .ok (names, r')) :
    Each (fun _ w => w.Whole) r' := by
  induction files generalizing r names with
  | nil =>
    cases hok
    exact h
  | cons f rest ih =>
    obtain ⟨g, _, -, hrest, -⟩ := addTraced_cons hok
    exact ih (h.append_whole g true) hrest

/-- One thing that joins files into a report, makes room for their sessions, or asks for totals. -/
inductive Joining (r : Report) : Report → Prop
  | addSession (s : Session) : Joining r (r.addSession s).2
  | addSessionWithId (id : Nat) (s : Session) {r' : Report} :
      r.addSessionWithId id s = .ok r' → Joining r r'
  | append (f : SourceFile) : Joining r (r.append f).2
  | merge (other : Report) : Joining r (r.merge other)
  | upload (files : List TracedFile) (upload : Upload) {summary : UploadSummary} {r' : Report} :
      r.addUpload files upload = .ok (summary, r') → Joining r r'
  | setLabels (labels : Table Nat String) : Joining r { r with labels := some labels }
  | readTotals : Joining r r.totals.2

/-- A report whose lines joined appends have built. -/
inductive Joined : Report → Prop
  | new : Joined {}
  | next {r r' : Report} : Joined r → Joining r r' → Joined r'

theorem Joining.whole (h : Joining r r') (hr : r.Whole) : r'.Whole := by
  cases h with
  | addSession s => exact ⟨hr.rows.of_eq rfl rfl, .of_none rfl⟩
  | addSessionWithId id s hok =>
    rw [addSessionWithId_eq_ok hok]
    exact ⟨hr.rows.of_eq rfl rfl, .of_none rfl⟩
  | append f => exact ⟨hr.rows.append_whole f true, hr.keeps.of_forgets (forgets_append r f true)⟩
  | merge other =>
    refine ⟨?_, hr.keeps.of_forgets (forgets_merge r other true)⟩
    have hrows := hr.rows
    -- the totals play no part in what follows, file after file
    rw [Report.merge]
    generalize other.sourceFiles = files
    clear hr
    induction files generalizing r with
    | nil => exact hrows
    | cons f rest ih => exact ih (hrows.append_whole f true)
  | upload files upload hok =>
    obtain ⟨names, last, hadded, -, rfl⟩ := addUpload_cases hok
    have hstart : Each (fun _ w => w.Whole) (r.addSession (sessionOf upload)).2 :=
      hr.rows.of_eq rfl rfl
    exact ⟨(hstart.addTraced_whole hadded).of_eq rfl rfl, .of_none rfl⟩
  | setLabels labels => exact ⟨hr.rows.of_eq rfl rfl, hr.keeps⟩
  | readTotals =>
    refine ⟨hr.rows.of_eq rfl rfl, fun t ht => ?_⟩
    exact (Option.some.inj ht).symm.trans hr.keeps.fst_totals

theorem Joined.whole (h : r.Joined) : r.Whole := by
  induction h with
  | new => exact ⟨.empty, .of_none rfl⟩
  | next _ hnext ih => exact hnext.whole ih

theorem Whole.deleteLabels (h : r.Whole) (ids labels : List Nat) :
    (r.deleteLabels ids labels).Whole where
  rows := h.rows.deleteLabels ids labels fun _ _ _ hw hkept => hw.withoutLabels hkept
  keeps := h.keeps.of_forgets (forgets_deleteLabels r ids labels)

theorem Whole.counted (h : r.Whole) : r.Counted := fun name _ _ he hf =>
  (h.rows.row name _ (row?_of_get? he hf)).totals

theorem Whole.stored (h : r.Whole) : r.Stored := by
  intro name f hf
  obtain ⟨w, hw, rfl⟩ := h.rows.of_file? hf
  exact hw.stored

/-! ## 3. Labels that tag nothing -/

def labelledDatapoint (s : LineSession) (label : Nat) : Datapoint :=
  { session := s.id, reading := s.reading, labels := [label] }

/-- What one session reads of a line, with a datapoint. -/
def labelledLine (s : LineSession) (label : Nat) : Line :=
  { reading := s.reading, sessions := [s], datapoints := some [labelledDatapoint s label] }

/-- What two sessions read of a line together. -/
def labelledPair (s s' : LineSession) : Line :=
  { reading := LineSession.readingOf [s, s']
    sessions := [s, s']
    complexity := LineSession.complexityOf [s, s']
    datapoints := some [labelledDatapoint s 5, labelledDatapoint s' 6] }

/-- A report of two sessions that a line was joined into. -/
def reportOf (l : Line) : Report :=
  (((({} : Report).addSession {}).2.addSession {}).2.append
    { name := "a", content := .lines (.ofList [(1, l)]) }).2

def labelledReport (s s' : LineSession) : Report :=
  ((reportOf (labelledLine s 5)).append
    { name := "a", content := .lines (.ofList [(1, labelledLine s' 6)]) }).2

theorem joined_labelledReport (s s' : LineSession) : (labelledReport s s').Joined :=
  .next (.next (.next (.next .new (.addSession {})) (.addSession {})) (.append _)) (.append _)

variable {s s' : LineSession}

theorem merge_labelledLine (h : s.id < s'.id) :
    (labelledLine s 5).merge (labelledLine s' 6) true = labelledPair s s' := by
  have hsessions : LineSession.mergeLists [s] [s'] = [s, s'] := by
    simp [LineSession.mergeLists, LineSession.mergeInto, Nat.ne_of_lt h]
  have horder : ((labelledDatapoint s 5).order (labelledDatapoint s' 6)).isLE = true := by
    simp [Datapoint.order, Datapoint.sortKey, labelledDatapoint, Nat.compare_eq_lt.2 h]
  have hdiffer : (labelledDatapoint s 5).same (labelledDatapoint s' 6) = false := by
    simp [Datapoint.same, labelledDatapoint]
  have hdatapoints : Datapoint.mergeLists (some [labelledDatapoint s 5])
      (some [labelledDatapoint s' 6]) =
        some [labelledDatapoint s 5, labelledDatapoint s' 6] := by
    simp [Datapoint.mergeLists, List.mergeSort_of_pairwise, horder, Datapoint.dropRepeats,
      Datapoint.dropRepeats.go, hdiffer]
  simp [Line.merge, labelledLine, labelledPair, hsessions, hdatapoints, Line.mergeMessages]

theorem file?_reportOf {k : Line} {f : SourceFile} (hf : (reportOf k).file? q = some f) :
    f = { name := "a", content := .lines (.ofList [(1, k)]) } := by
  obtain ⟨i, -, hin⟩ := file?_eq_some.1 hf
  have hslots : (reportOf k).slots =
      [some { name := "a", content := .lines (.ofList [(1, k)]) }] := rfl
  rw [inSlot?, hslots] at hin
  cases i with
  | succ i => cases hin
  | zero => exact (Option.some.inj hin).symm

theorem lineAt?_reportOf {k : Line} (hl : (reportOf k).lineAt? q n = some l) : l = k := by
  obtain ⟨f, hf, hget⟩ := Option.bind_eq_some_iff.1 hl
  rw [file?_reportOf hf] at hget
  exact congrArg Prod.snd (List.mem_singleton.1 ((Table.get?_eq_some_iff _).1 hget))

end Report

end CoverageLedger
