import CoverageLedger.Proofs.Report.Edits

/-!
# Reports that can be reached

A report is `Reached` when operations lead to it from an empty one, in any number and order.  What
holds of all of them is that they are sound and that totals, once kept, are those of the report as it
is.  An operation either forgets the totals or changes nothing that they count.
-/

namespace CoverageLedger.Report

variable {r r' : Report}

/-! ## 1. Totals that are kept -/

/-- The totals that are kept, if any, are those of the report as it is. -/
def KeepsTotals (r : Report) : Prop := ∀ t, r.knownTotals = some t → t = r.computedTotals

/-- Nothing was done, or the totals are to be computed anew. -/
def Forgets (r r' : Report) : Prop := r' = r ∨ r'.knownTotals = none

theorem KeepsTotals.of_none (h : r.knownTotals = none) : r.KeepsTotals := fun t ht => by
  rw [h] at ht
  cases ht

theorem KeepsTotals.of_forgets (h : r.KeepsTotals) (hforgets : Forgets r r') : r'.KeepsTotals := by
  rcases hforgets with rfl | hnone
  · exact h
  · exact .of_none hnone

theorem KeepsTotals.fst_totals (h : r.KeepsTotals) : r.totals.1 = r.computedTotals := by
  show r.knownTotals.getD r.computedTotals = r.computedTotals
  cases ht : r.knownTotals with
  | none => rfl
  | some t => exact h t ht

/-- The totals of a report follow from the totals of its files and the number of its sessions. -/
theorem computedTotals_congr (hnames : r'.names = r.names)
    (htotals : ∀ q, r'.fileTotals? q = r.fileTotals? q) (hsessions : r'.sessions = r.sessions) :
    r'.computedTotals = r.computedTotals := by
  rw [computedTotals, computedTotals, hnames, hsessions, funext htotals]

theorem Sound.fileTotals? (h : r.Sound) (q : String) :
    r.fileTotals? q = (r.file? q).map SourceFile.totals := h.counted.fileTotals? h.consistent q

theorem Sound.computedTotals_congr (h : r.Sound) (h' : r'.Sound) (hnames : r'.names = r.names)
    (hfiles : ∀ q, r'.file? q = r.file? q) (hsessions : r'.sessions = r.sessions) :
    r'.computedTotals = r.computedTotals := by
  refine Report.computedTotals_congr hnames (fun q => ?_) hsessions
  rw [h'.fileTotals?, h.fileTotals?, hfiles]

theorem Forgets.trans {r'' : Report} (h : Forgets r r') (h' : Forgets r' r'') : Forgets r r'' := by
  rcases h' with rfl | hnone
  · exact h
  · exact .inr hnone

/-! ## 2. Which operations forget the totals -/

theorem forgets_append (r : Report) (f : SourceFile) (joined : Bool) :
    Forgets r (r.append f joined).2 := by
  rw [append]
  split
  · exact .inl rfl
  · right
    dsimp only
    split
    · split <;> rfl
    · rfl

theorem forgets_merge (r other : Report) (joined : Bool) : Forgets r (r.merge other joined) := by
  rw [merge]
  generalize other.sourceFiles = files
  induction files generalizing r with
  | nil => exact .inl rfl
  | cons f rest ih => exact (forgets_append r f joined).trans (ih _)

theorem forgets_remove (r : Report) (name : String) : Forgets r (r.remove name).2 := by
  rw [remove]
  split
  · exact .inr rfl
  · exact .inl rfl

theorem forgets_rename (h : r.Consistent) (old new : String) : Forgets r (r.rename old new).2 := by
  rcases rename_cases h old new with heq | ⟨e, f, -, -, -, heq⟩
  · exact .inl heq
  · exact .inr (by rw [heq]; rfl)

theorem forgets_deleteSessions (r : Report) (ids : List Nat) : Forgets r (r.deleteSessions ids) := by
  by_cases h : ids = []
  · exact .inl (by rw [h]; rfl)
  · exact .inr (by rw [deleteSessions_of_ne_nil h])

theorem forgets_deleteLabels (r : Report) (ids labels : List Nat) :
    Forgets r (r.deleteLabels ids labels) := by
  rw [deleteLabels]
  split
  · exact .inl rfl
  · exact .inr rfl

theorem forgets_changeSession {old new : Nat} (h : r.changeSession old new = .ok r') :
    Forgets r r' := by
  rw [changeSession] at h
  split at h
  · cases h
  · split at h
    · cases h
      exact .inl rfl
    · split at h
      · cases h
      · cases h
        exact .inr rfl

theorem forgets_shift (r : Report) (d : Diff) (direction : Direction) :
    Forgets r (r.shift d direction) := by
  rw [shift]
  generalize d.files.entries = entries
  induction entries generalizing r with
  | nil => exact .inl rfl
  | cons e rest ih =>
    refine Forgets.trans ?_ (ih (r.shiftFile e.1 e.2 direction))
    rcases shiftFile_cases r e.1 e.2 direction with heq | heq | ⟨-, file, -, heq⟩
    · exact .inl heq
    · exact .inr (by rw [heq]; rfl)
    · exact .inr (by rw [heq, knownTotals_refresh, knownTotals_putFile]; rfl)

/-! ## 3. Which operations keep them right -/

theorem KeepsTotals.applyDiff (h : r.KeepsTotals) (hsound : r.Sound) (d : Diff) :
    (r.applyDiff d).2.2.KeepsTotals := by
  rcases applyDiff_cases hsound d with heq | heq
  · rw [heq]
    exact h
  · rw [heq]
    intro t ht
    have hnames : (r.withDiffTotals (r.diffTotals d)).names = r.names := by
      rw [names, names, Table.keys, Table.keys, withDiffTotals, Table.map, List.map_map]
      rfl
    rw [hsound.computedTotals_congr (hsound.withDiffTotals _) hnames (file?_withDiffTotals _) rfl]
    exact h t ht

theorem KeepsTotals.repack (h : r.KeepsTotals) (hsound : r.Sound) : r.repack.2.KeepsTotals := by
  intro t ht
  have hnames : r.repack.2.names = r.names := by
    rw [repack_of_consistent hsound.consistent, names, names, Table.keys, Table.keys, Table.map,
      List.map_map]
    rfl
  have hsessions : r.repack.2.sessions = r.sessions := by
    rw [repack_of_consistent hsound.consistent]
  rw [repack_of_consistent hsound.consistent] at ht
  rw [hsound.computedTotals_congr hsound.repack hnames (file?_repack hsound.consistent) hsessions]
  exact h t ht

/-! ## 4. Runs -/

/-- One operation on a report.  Files come from anywhere, as long as they are sound; following a diff
that sends a line to number zero has no result, as no file has a place for that line. -/
inductive Step (r : Report) : Report → Prop
  | addSession (s : Session) : Step r (r.addSession s).2
  | append (f : SourceFile) (joined : Bool) : f.Sound → Step r (r.append f joined).2
  | merge (other : Report) (joined : Bool) :
      (∀ f ∈ other.sourceFiles, f.Sound) → Step r (r.merge other joined)
  | remove (name : String) : Step r (r.remove name).2
  | rename (old new : String) : Step r (r.rename old new).2
  | deleteSessions (ids : List Nat) : Step r (r.deleteSessions ids)
  | deleteLabels (ids labels : List Nat) : Step r (r.deleteLabels ids labels)
  | changeSession (old new : Nat) {r' : Report} : r.changeSession old new = .ok r' → Step r r'
  | shift (d : Diff) (direction : Direction) :
      r.StaysNumbered d direction → Step r (r.shift d direction)
  | applyDiff (d : Diff) : Step r (r.applyDiff d).2.2
  | repack : Step r r.repack.2
  | setLabels (labels : Table Nat String) : Step r { r with labels := some labels }
  | totals : Step r r.totals.2

/-- A report that operations lead to from an empty one. -/
inductive Reached : Report → Prop
  | new : Reached {}
  | step {r r' : Report} : Reached r → Step r r' → Reached r'

theorem Step.sound (h : Step r r') (hr : r.Sound) : r'.Sound := by
  cases h with
  | addSession s => exact hr.of_eq rfl rfl
  | append f joined hf => exact hr.append hf joined
  | merge other joined hother => exact hr.merge hother joined
  | remove name => exact hr.remove name
  | rename old new => exact hr.rename old new
  | deleteSessions ids => exact hr.deleteSessions ids
  | deleteLabels ids labels => exact hr.deleteLabels ids labels
  | changeSession old new hok => exact hr.changeSession hok
  | shift d direction hstays => exact hr.shift hstays
  | applyDiff d => exact hr.applyDiff d
  | repack => exact hr.repack
  | setLabels labels => exact hr.of_eq rfl rfl
  | totals => exact hr.of_eq rfl rfl

theorem Step.keepsTotals (h : Step r r') (hr : r.Sound) (hkeeps : r.KeepsTotals) :
    r'.KeepsTotals := by
  cases h with
  | addSession s => exact .of_none rfl
  | append f joined hf => exact hkeeps.of_forgets (forgets_append r f joined)
  | merge other joined hother => exact hkeeps.of_forgets (forgets_merge r other joined)
  | remove name => exact hkeeps.of_forgets (forgets_remove r name)
  | rename old new => exact hkeeps.of_forgets (forgets_rename hr.consistent old new)
  | deleteSessions ids => exact hkeeps.of_forgets (forgets_deleteSessions r ids)
  | deleteLabels ids labels => exact hkeeps.of_forgets (forgets_deleteLabels r ids labels)
  | changeSession old new hok => exact hkeeps.of_forgets (forgets_changeSession hok)
  | shift d direction hstays => exact hkeeps.of_forgets (forgets_shift r d direction)
  | applyDiff d => exact hkeeps.applyDiff hr d
  | repack => exact hkeeps.repack hr
  | setLabels labels => exact hkeeps
  | totals =>
    intro t ht
    exact (Option.some.inj ht).symm.trans hkeeps.fst_totals

/-- **Every report that can be reached** is sound, and its totals are right. -/
theorem Reached.sound (h : Reached r) : r.Sound ∧ r.KeepsTotals := by
  induction h with
  | new => exact ⟨.empty, .of_none rfl⟩
  | step _ hstep ih => exact ⟨hstep.sound ih.1, hstep.keepsTotals ih.1 ih.2⟩

end CoverageLedger.Report
