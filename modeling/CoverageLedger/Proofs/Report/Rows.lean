import CoverageLedger.Proofs.Report.Edits
import CoverageLedger.Proofs.SourceFile.Unread

/-!
# What stands under a name

A `Row` is what a report has under a name: the file, and the totals that the manifest keeps of it.
In a consistent report every operation changes the row of one name, or of each name on its own.  The
lemmas here say which row that is afterwards, whether the lines of the file were read or not.
-/

namespace CoverageLedger

/-! ## 1. Rows -/

/-- A file with what the manifest says of it. -/
structure Row where
  totals : Totals
  sessionTotals : SessionTotals
  file : SourceFile

namespace Row

/-- The row of a file whose lines were counted just now. -/
def counted (f : SourceFile) : Row :=
  { totals := f.totals, sessionTotals := f.sessionTotals, file := f.opened }

def withoutSessions (ids : List Nat) (w : Row) : Option Row :=
  if Report.Emptied ids w.file then none
  else
    let kept := if w.file.hasAnySession ids then counted (w.file.withoutSessions ids)
      else { w with file := w.file.withoutSessions ids }
    some { kept with sessionTotals := ids.foldl SessionTotals.erase kept.sessionTotals }

def withoutLabels (ids labels : List Nat) (w : Row) : Option Row :=
  let file := w.file.withoutLabels ids labels
  if w.file.hasAnySession ids then if file.isEmpty then none else some (counted file)
  else some { w with file }

def changeSession (old new : Nat) (w : Row) : Row :=
  { w with
    sessionTotals := w.sessionTotals.changeId old new
    file := w.file.changeSessionId old new }

/-- The row of a file that follows a diff, when the diff has hunks for it that fit. -/
def shift (f : DiffFile) (direction : Direction) (w : Row) : Row :=
  if f.kind ≠ .modified ∨ f.hunks.isEmpty then w
  else if (w.file.shift f.hunks direction).1 then counted (w.file.shift f.hunks direction).2
  else w

/-- What is left of a row has the file without the sessions, which may have been read. -/
theorem file_withoutSessions {ids : List Nat} {w w' : Row} {P : SourceFile → Prop}
    (hleft : P (w.file.withoutSessions ids)) (hopened : ∀ f, P f → P f.opened)
    (h : w.withoutSessions ids = some w') : P w'.file := by
  unfold withoutSessions at h
  split at h
  · cases h
  · rw [← Option.some.inj h]
    dsimp only
    split
    · exact hopened _ hleft
    · exact hleft

end Row

namespace Report

variable {r r' : Report} {name q : String} {f g : SourceFile} {e : FileEntry} {w : Row}

/-- What a report has under a name. -/
def row? (r : Report) (name : String) : Option Row :=
  (r.files.get? name).bind fun e => (r.file? name).map fun f =>
    { totals := e.totals, sessionTotals := e.sessionTotals, file := f }

theorem row?_eq_some : r.row? name = some w ↔ ∃ e, r.files.get? name = some e ∧
    r.file? name = some w.file ∧ e.totals = w.totals ∧ e.sessionTotals = w.sessionTotals := by
  unfold row?
  rw [Option.bind_eq_some_iff]
  constructor
  · rintro ⟨e, he, hmap⟩
    obtain ⟨f, hf, rfl⟩ := Option.map_eq_some_iff.1 hmap
    exact ⟨e, he, hf, rfl, rfl⟩
  · rintro ⟨e, he, hf, htotals, hsessions⟩
    refine ⟨e, he, ?_⟩
    rw [hf, Option.map_some, htotals, hsessions]

theorem row?_of_get? (he : r.files.get? name = some e) (hf : r.file? name = some f) :
    r.row? name = some { totals := e.totals, sessionTotals := e.sessionTotals, file := f } :=
  row?_eq_some.2 ⟨e, he, hf, rfl, rfl⟩

theorem file?_of_row? (h : r.row? name = some w) : r.file? name = some w.file := by
  obtain ⟨e, -, hf, -⟩ := row?_eq_some.1 h
  exact hf

theorem row?_eq_none (h : r.file? name = none) : r.row? name = none := by
  unfold row?
  rw [h]
  cases r.files.get? name <;> rfl

/-- In a consistent report each file has a row. -/
theorem exists_row? (hf : r.file? name = some f) : ∃ w, r.row? name = some w ∧ w.file = f := by
  obtain ⟨e, he⟩ := Consistent.get?_of_file? hf
  exact ⟨_, row?_of_get? he hf, rfl⟩

/-- Entries with the same totals and the same files make the same rows. -/
theorem row?_congr (hfile : r'.file? name = r.file? name)
    (hentry : (r'.files.get? name).map (fun e => (e.totals, e.sessionTotals)) =
      (r.files.get? name).map fun e => (e.totals, e.sessionTotals)) : r'.row? name = r.row? name := by
  have hrow (r : Report) : r.row? name =
      ((r.files.get? name).map fun e => (e.totals, e.sessionTotals)).bind fun t =>
        (r.file? name).map fun f => { totals := t.1, sessionTotals := t.2, file := f } := by
    unfold row?
    cases r.files.get? name <;> rfl
  rw [hrow, hrow, hentry, hfile]

/-! ## 2. The primitive operations -/

@[simp] theorem row?_changed : r.changed.row? name = r.row? name := rfl

theorem row?_putFile (h : r.Consistent) (hf : r.file? name = some f) (g : SourceFile) (q : String) :
    (r.putFile name g).row? q =
      if q = name then (r.row? q).map fun w => { w with file := g } else r.row? q := by
  unfold row?
  rw [files_putFile, h.file?_putFile hf]
  by_cases hq : q = name
  · rw [if_pos hq, if_pos hq, hq, hf]
    cases r.files.get? name <;> rfl
  · rw [if_neg hq, if_neg hq]

/-- A file that is written anew and counted. -/
theorem row?_rewrite (h : r.Consistent) (hf : r.file? name = some f) (g : SourceFile) (q : String) :
    ((r.putFile name g).refresh name).row? q =
      if q = name then some (.counted g) else r.row? q := by
  have hput := h.file?_putFile hf g
  have hnext := h.putFile hf g
  have hown : (r.putFile name g).file? name = some g := (hput name).trans (if_pos rfl)
  obtain ⟨e, he⟩ := Consistent.get?_of_file? hf
  unfold row?
  rw [get?_refresh hown, files_putFile, hnext.file?_refresh hown, hput]
  by_cases hq : q = name
  · rw [if_pos hq, if_pos hq, if_pos hq, hq, he]
    rfl
  · rw [if_neg hq, if_neg hq, if_neg hq, if_neg hq]

theorem row?_remove (h : r.Consistent) (name q : String) :
    (r.remove name).2.row? q = if q = name then none else r.row? q := by
  unfold row?
  rw [get?_remove, file?_remove h]
  by_cases hq : q = name
  · rw [if_pos hq, if_pos hq, if_pos hq]
    rfl
  · rw [if_neg hq, if_neg hq, if_neg hq]

theorem row?_append (h : r.Consistent) (hne : f.isEmpty = false) (joined : Bool) (q : String) :
    (r.append f joined).2.row? q =
      if q = f.name then some (.counted (r.placed f joined)) else r.row? q := by
  have hopened : (r.placed f joined).opened = r.placed f joined :=
    opened_of_isParsed (isParsed_placed r f joined)
  obtain ⟨diffTotals, hget⟩ := get?_append h hne joined q
  unfold row?
  rw [hget, file?_append h hne]
  by_cases hq : q = f.name
  · rw [if_pos hq, if_pos hq, if_pos hq, Row.counted, hopened]
    rfl
  · rw [if_neg hq, if_neg hq, if_neg hq]

theorem row?_moved {old new : String} (h : r.Consistent) (he : r.files.get? old = some e)
    (hf : r.file? old = some f) (q : String) : (r.moved old new e f).row? q =
      if q = new then (r.row? old).map fun w => { w with file := { w.file with name := new } }
      else if q = old then none else r.row? q := by
  rw [row?_of_get? he hf]
  unfold row?
  rw [get?_moved, file?_moved h he hf]
  by_cases hq : q = new
  · rw [if_pos hq, if_pos hq, if_pos hq]
    rfl
  · rw [if_neg hq, if_neg hq, if_neg hq]
    by_cases hqo : q = old
    · rw [if_pos hqo, if_pos hqo, if_pos hqo]
      rfl
    · rw [if_neg hqo, if_neg hqo, if_neg hqo]

theorem row?_repack (h : r.Consistent) (q : String) : r.repack.2.row? q = r.row? q := by
  refine row?_congr (file?_repack h q) ?_
  rw [repack_of_consistent h, Table.get?_map, Option.map_map]
  rfl

theorem row?_withDiffTotals (result : DiffTotals) (q : String) :
    (r.withDiffTotals result).row? q = r.row? q := by
  refine row?_congr (file?_withDiffTotals result q) ?_
  rw [withDiffTotals, Table.get?_map, Option.map_map]
  refine congrArg (Option.map · (r.files.get? q)) (funext fun e => ?_)
  dsimp only [Function.comp_apply]
  split <;> rfl

theorem row?_deleteSessions (h : r.Consistent) {ids : List Nat} (hids : ids ≠ []) (q : String) :
    (r.deleteSessions ids).row? q = (r.row? q).bind (Row.withoutSessions ids) := by
  cases hf : r.file? q with
  | none =>
    have hgone : (r.deleteSessions ids).file? q = none := by rw [file?_deleteSessions hids, hf]; rfl
    rw [row?_eq_none hf, row?_eq_none hgone]
    rfl
  | some f =>
    obtain ⟨e, he⟩ := Consistent.get?_of_file? hf
    rw [row?_of_get? he hf, Option.bind_some, Row.withoutSessions]
    unfold row?
    rw [get?_deleteSessions h hids hf, file?_deleteSessions hids, hf, Option.bind_some, he]
    by_cases hempty : Emptied ids f
    · rw [if_pos hempty, if_pos hempty, if_pos hempty]
      rfl
    · rw [if_neg hempty, if_neg hempty, if_neg hempty, Option.map_some, Option.bind_some,
        Option.map_some, entryWithout]
      -- a file that lost a session has read lines, so that counting opens nothing more
      cases hany : f.hasAnySession ids with
      | true =>
        have hopened : (f.withoutSessions ids).opened = f.withoutSessions ids := by
          rw [SourceFile.withoutSessions_of_has hany]
          rfl
        rw [if_pos rfl]
        simp only [if_true, Row.counted, hopened]
      | false => rfl

/-! ## 3. Operations on the file of one name -/

/-- What is under one name changes, and nothing else is seen to. -/
structure ActsAt (name : String) (change : Row → Option Row) (r r' : Report) : Prop where
  consistent : r'.Consistent
  row : ∀ q, r'.row? q = if q = name then (r.row? q).bind change else r.row? q
  sessions : r'.sessions = r.sessions

/-- Nothing changes under a name that has no file. -/
theorem ActsAt.of_none {change : Row → Option Row} (h : r'.Consistent)
    (hrow : ∀ q, r'.row? q = r.row? q) (hsessions : r'.sessions = r.sessions)
    (hnone : r.row? name = none) : ActsAt name change r r' := by
  refine ⟨h, fun q => ?_, hsessions⟩
  rw [hrow]
  by_cases hq : q = name
  · rw [if_pos hq, hq, hnone]
    rfl
  · rw [if_neg hq]

theorem actsAt_afterReading (h : r.Consistent) (name : String) (read : SourceFile → SourceFile) :
    ActsAt name (fun w => some { w with file := read w.file }) r (r.afterReading name read) := by
  unfold afterReading
  cases hf : r.file? name with
  | none => exact .of_none h (fun _ => rfl) rfl (row?_eq_none hf)
  | some f =>
    obtain ⟨w, hw, rfl⟩ := exists_row? hf
    refine ⟨h.putFile hf _, fun q => ?_, sessions_putFile⟩
    rw [row?_putFile h hf]
    by_cases hq : q = name
    · rw [if_pos hq, if_pos hq, hq, hw]
      rfl
    · rw [if_neg hq, if_neg hq]

theorem ActsAt.of_some {change : Row → Option Row} (hf : r.file? name = some f)
    (h : r'.Consistent) (hsessions : r'.sessions = r.sessions)
    (hrow : ∀ w, r.row? name = some w → w.file = f → ∀ q,
      r'.row? q = if q = name then change w else r.row? q) : ActsAt name change r r' := by
  obtain ⟨w, hw, hfile⟩ := exists_row? hf
  refine ⟨h, fun q => ?_, hsessions⟩
  rw [hrow w hw hfile]
  by_cases hq : q = name
  · rw [if_pos hq, if_pos hq, hq, hw, Option.bind_some]
  · rw [if_neg hq, if_neg hq]

theorem actsAt_deleteLabelsIn (h : r.Consistent) (ids labels : List Nat) (name : String) :
    ActsAt name (Row.withoutLabels ids labels) r (deleteLabelsIn ids labels r name) := by
  unfold deleteLabelsIn
  cases hf : r.file? name with
  | none =>
    split
    · exact .of_none h (fun _ => rfl) rfl (row?_eq_none hf)
    · simp only [file?_changed, hf]
      exact .of_none h.changed (fun _ => rfl) rfl (row?_eq_none hf)
  | some f =>
    simp only [contains_of_file? hf, Bool.not_true, Bool.false_eq_true, if_false, file?_changed, hf]
    cases hany : f.hasAnySession ids with
    | false =>
      simp only [Bool.false_eq_true, if_false]
      refine .of_some hf (h.changed.putFile hf _) sessions_putFile fun w hw hfile q => ?_
      subst hfile
      rw [row?_putFile h.changed hf, row?_changed, Row.withoutLabels, hany]
      by_cases hq : q = name
      · rw [if_pos hq, if_pos hq, hq, hw, SourceFile.withoutLabels, hany]
        rfl
      · rw [if_neg hq, if_neg hq]
    | true =>
      simp only [if_true]
      have hleft : f.withoutLabels ids labels = f.afterSessionIds.deleteLabels ids labels := by
        rw [SourceFile.withoutLabels, hany]
        rfl
      rw [← hleft]
      cases hempty : (f.withoutLabels ids labels).isEmpty with
      | true =>
        simp only [if_true]
        rw [snd_remove_putFile (r := r.changed) hf]
        refine .of_some hf (h.changed.remove name) sessions_remove fun w hw hfile q => ?_
        subst hfile
        rw [row?_remove h.changed, row?_changed, Row.withoutLabels, hany]
        simp only [hempty, if_true]
      | false =>
        simp only [Bool.false_eq_true, if_false]
        refine .of_some hf ((h.changed.putFile hf _).refresh name) ?_ fun w hw hfile q => ?_
        · rw [sessions_refresh, sessions_putFile]
          rfl
        · subst hfile
          rw [row?_rewrite h.changed hf, row?_changed, Row.withoutLabels, hany]
          simp only [hempty, Bool.false_eq_true, if_false, if_true]

/-- The totals by session of one name change, and every slot number stays. -/
theorem actsAt_withSessionTotals (h : r.Consistent) (name : String)
    (change : SessionTotals → SessionTotals) :
    ActsAt name (fun w => some { w with sessionTotals := change w.sessionTotals }) r
      { r with files := r.files.modify name fun e =>
          { e with sessionTotals := change e.sessionTotals } } := by
  have hslot (q : String) : slotOf? { r with files := r.files.modify name fun e =>
      { e with sessionTotals := change e.sessionTotals } } q = r.slotOf? q := by
    rw [slotOf?, slotOf?, Table.get?_modify]
    split
    · rw [Option.map_map]
      rfl
    · rfl
  have hfile (q : String) : file? { r with files := r.files.modify name fun e =>
      { e with sessionTotals := change e.sessionTotals } } q = r.file? q :=
    file?_congr (hslot q) fun _ => rfl
  refine ⟨h.congr hslot fun _ => rfl, fun q => ?_, rfl⟩
  unfold row?
  rw [hfile, Table.get?_modify]
  by_cases hq : q = name
  · rw [if_pos hq, if_pos hq]
    cases r.files.get? q with
    | none => rfl
    | some e => cases r.file? q <;> rfl
  · rw [if_neg hq, if_neg hq]

/-- Two steps for the same name make one. -/
theorem ActsAt.trans {r'' : Report} {change change' : Row → Option Row}
    (h : ActsAt name change r r') (h' : ActsAt name change' r' r'') :
    ActsAt name (fun w => (change w).bind change') r r'' := by
  refine ⟨h'.consistent, fun q => ?_, h'.sessions.trans h.sessions⟩
  rw [h'.row, h.row]
  by_cases hq : q = name
  · rw [if_pos hq, if_pos hq, if_pos hq, Option.bind_assoc]
  · rw [if_neg hq, if_neg hq, if_neg hq]

theorem actsAt_changeSessionIn (h : r.Consistent) (old new : Nat) (name : String) :
    ActsAt name (fun w => some (w.changeSession old new)) r (changeSessionIn old new r name) := by
  have hread := actsAt_afterReading h.changed name fun f => f.changeSessionId old new
  have hentry := actsAt_withSessionTotals hread.consistent name (·.changeId old new)
  exact ⟨hentry.consistent, (hread.trans hentry).row, (hread.trans hentry).sessions⟩

theorem actsAt_shiftFile (h : r.Consistent) (path : String) (f : DiffFile) (direction : Direction) :
    ActsAt path (fun w => some (w.shift f direction)) r (r.shiftFile path f direction) := by
  unfold shiftFile Row.shift
  split
  · refine ⟨h, fun q => ?_, rfl⟩
    rw [Option.bind_fun_some, ite_self]
  · cases hf : r.file? path with
    | none =>
      split
      · exact .of_none h (fun _ => rfl) rfl (row?_eq_none hf)
      · simp only [file?_changed, hf]
        exact .of_none h.changed (fun _ => rfl) rfl (row?_eq_none hf)
    | some file =>
      simp only [contains_of_file? hf, Bool.not_true, Bool.false_eq_true, if_false, file?_changed,
        hf]
      cases hshift : file.shift f.hunks direction with
      | mk fits shifted =>
        cases fits with
        | true =>
          refine .of_some hf ((h.changed.putFile hf _).refresh path) ?_ fun w hw hfile q => ?_
          · rw [sessions_refresh, sessions_putFile]
            rfl
          · rw [row?_rewrite h.changed hf, row?_changed, hfile, hshift]
            rfl
        | false =>
          refine .of_some hf h.changed rfl fun w hw hfile q => ?_
          rw [row?_changed, hfile, hshift]
          by_cases hq : q = path
          · rw [if_pos hq, hq, hw]
            rfl
          · rw [if_neg hq]

/-- Steps for one name each, of which none comes twice. -/
theorem ActsAt.foldl {α : Type} (step : Report → α → Report) {name : α → String}
    (change : α → Row → Option Row)
    (hstep : ∀ r a, r.Consistent → ActsAt (name a) (change a) r (step r a)) {items : List α}
    (hnodup : (items.map name).Nodup) (h : r.Consistent) :
    (items.foldl step r).Consistent ∧ (items.foldl step r).sessions = r.sessions ∧
      (∀ q, q ∉ items.map name → (items.foldl step r).row? q = r.row? q) ∧
      ∀ a ∈ items, (items.foldl step r).row? (name a) = (r.row? (name a)).bind (change a) := by
  induction items generalizing r with
  | nil => exact ⟨h, rfl, fun _ _ => rfl, fun a ha => absurd ha List.not_mem_nil⟩
  | cons a rest ih =>
    obtain ⟨hout, hrest⟩ := List.nodup_cons.1 hnodup
    have hone := hstep r a h
    obtain ⟨hconsistent, hsessions, hothers, hnamed⟩ := ih hrest hone.consistent
    refine ⟨hconsistent, hsessions.trans hone.sessions, fun q hq => ?_, fun b hb => ?_⟩
    · obtain ⟨hne, hq⟩ := not_or.1 (fun hmem => hq (List.mem_cons.2 hmem))
      rw [List.foldl_cons, hothers q hq, hone.row, if_neg hne]
    · rw [List.foldl_cons]
      rcases List.mem_cons.1 hb with rfl | hb
      · -- the name of the first step does not come again
        rw [hothers _ hout, hone.row, if_pos rfl]
      · have hne : name b ≠ name a := fun heq => hout (heq ▸ List.mem_map.2 ⟨b, hb, rfl⟩)
        rw [hnamed b hb, hone.row, if_neg hne]

end Report

end CoverageLedger
