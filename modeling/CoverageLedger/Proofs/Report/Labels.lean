import CoverageLedger.Proofs.Report.Untagged

/-!
# Label deletions one after the other

Deleting labels cuts the datapoints of a line down, and takes with them the sessions that had some
and have none any more.  Sessions without any datapoint count as unlabelled; a second cut finds the
same ones, as the first has taken those away that it left without (`Line.cutDown_cutDown`).  Two
deletions of labels of the same sessions are therefore one deletion of all their labels
(`deleteLabels_deleteLabels`), although the second passes over files that the sessions have left.
-/

namespace CoverageLedger

/-! ## 1. One line -/

namespace Line

variable {ids labels labels' : List Nat} {before kept kept' : List Datapoint} {l l' : Line}

/-- The datapoints that stay when some sessions lose some labels. -/
def keptDatapoints (ids labels : List Nat) (ds : List Datapoint) : List Datapoint :=
  ds.filter fun d => !ids.contains d.session || d.labels.all fun label => !labels.contains label

/-- The sessions that stay on a line when of its datapoints only some are kept. -/
def keptSessions (before kept : List Datapoint) (sessions : List LineSession) : List LineSession :=
  sessions.filter fun s =>
    !(before.map (·.session)).contains s.id || (kept.map (·.session)).contains s.id

/-- A line of which only some datapoints are kept. -/
def cutDown (before kept : List Datapoint) (l : Line) : Option Line :=
  let sessions := keptSessions before kept l.sessions
  let unlabelled := sessions.filter fun s => !(before.map (·.session)).contains s.id
  if kept.isEmpty && sessions.isEmpty then none
  else
    some { l with
      sessions
      reading := Reading.mergeAll (kept.map (·.reading) ++ unlabelled.map (·.reading)) none
      datapoints := some kept }

theorem withoutLabels_of_none (h : l.datapoints = none) : l.withoutLabels ids labels = some l := by
  rw [withoutLabels, h]

theorem withoutLabels_of_some (h : l.datapoints = some before) :
    l.withoutLabels ids labels = l.cutDown before (keptDatapoints ids labels before) := by
  rw [withoutLabels, h]
  rfl

theorem keptDatapoints_subset (ds : List Datapoint) : keptDatapoints ids labels ds ⊆ ds :=
  List.filter_subset_self ds

theorem keptDatapoints_keptDatapoints (ds : List Datapoint) :
    keptDatapoints ids labels' (keptDatapoints ids labels ds) =
      keptDatapoints ids (labels ++ labels') ds := by
  rw [keptDatapoints, keptDatapoints, keptDatapoints, List.filter_filter]
  refine List.filter_congr fun d _ => ?_
  rw [Bool.eq_iff_iff]
  simp only [Bool.and_eq_true, Bool.or_eq_true, List.all_eq_true, List.contains_eq_mem,
    List.mem_append, Bool.not_eq_true', decide_eq_false_iff_not]
  constructor
  · rintro ⟨h', h⟩
    by_cases hin : d.session ∈ ids
    · refine .inr fun label hlabel hmem => ?_
      rcases hmem with hmem | hmem
      · exact h.resolve_left (not_not_intro hin) label hlabel hmem
      · exact h'.resolve_left (not_not_intro hin) label hlabel hmem
    · exact .inl hin
  · intro h
    exact ⟨h.imp_right fun hall label hlabel hmem => hall label hlabel (.inr hmem),
      h.imp_right fun hall label hlabel hmem => hall label hlabel (.inl hmem)⟩

/-- Two cuts are one.  A session that the first cut left without datapoints is gone when the second
asks which sessions have none, so these are the same sessions as at the start. -/
theorem cutDown_cutDown (hkept : kept ⊆ before) (hkept' : kept' ⊆ kept) :
    (l.cutDown before kept).bind (cutDown kept kept') = l.cutDown before kept' := by
  have hafter : kept.map (·.session) ⊆ before.map (·.session) := List.map_subset _ hkept
  have hafter' : kept'.map (·.session) ⊆ kept.map (·.session) := List.map_subset _ hkept'
  have hsessions : keptSessions kept kept' (keptSessions before kept l.sessions) =
      keptSessions before kept' l.sessions := by
    rw [keptSessions, keptSessions, keptSessions, List.filter_filter]
    refine List.filter_congr fun s _ => ?_
    have hs := @hafter s.id
    have hs' := @hafter' s.id
    rw [Bool.eq_iff_iff]
    simp only [Bool.and_eq_true, Bool.or_eq_true, Bool.not_eq_true', List.contains_eq_mem,
      decide_eq_true_eq, decide_eq_false_iff_not]
    tauto
  have hunlabelled : (keptSessions before kept' l.sessions).filter (fun s =>
      !(kept.map (·.session)).contains s.id) =
        (keptSessions before kept' l.sessions).filter fun s =>
          !(before.map (·.session)).contains s.id := by
    refine List.filter_congr fun s hs => ?_
    have hstays := (List.mem_filter.1 hs).2
    have hs := @hafter s.id
    have hs' := @hafter' s.id
    rw [Bool.eq_iff_iff]
    simp only [Bool.or_eq_true, Bool.not_eq_true', List.contains_eq_mem, decide_eq_true_eq,
      decide_eq_false_iff_not] at hstays ⊢
    tauto
  rw [cutDown]
  split
  · rename_i hgone
    rw [Bool.and_eq_true, List.isEmpty_iff, List.isEmpty_iff] at hgone
    obtain rfl : kept' = [] := List.subset_nil.1 (hgone.1 ▸ hkept')
    have hleft : keptSessions before [] l.sessions = [] := by
      rw [← hsessions, hgone.2]
      rfl
    rw [cutDown, hleft]
    rfl
  · rw [Option.bind_some, cutDown, cutDown]
    simp only [hsessions, hunlabelled]

/-- Two deletions of labels from a line are one. -/
theorem withoutLabels_withoutLabels :
    (l.withoutLabels ids labels).bind (Line.withoutLabels ids labels') =
      l.withoutLabels ids (labels ++ labels') := by
  cases hds : l.datapoints with
  | none =>
    rw [withoutLabels_of_none hds, withoutLabels_of_none hds, Option.bind_some,
      withoutLabels_of_none hds]
  | some ds =>
    rw [withoutLabels_of_some hds, withoutLabels_of_some hds, ← keptDatapoints_keptDatapoints,
      ← cutDown_cutDown (keptDatapoints_subset ds) (keptDatapoints_subset _)]
    -- what a cut leaves has the datapoints that were kept
    rw [cutDown]
    split
    · rfl
    · rw [Option.bind_some, Option.bind_some, withoutLabels_of_some rfl]

/-- The session of a datapoint that is kept is kept. -/
theorem Backed.withoutLabels (h : l.Backed) (hleft : l.withoutLabels ids labels = some l') :
    l'.Backed := by
  cases hds : l.datapoints with
  | none =>
    rw [withoutLabels_of_none hds] at hleft
    exact Option.some.inj hleft ▸ h
  | some ds =>
    rw [withoutLabels_of_some hds, cutDown] at hleft
    split at hleft
    · cases hleft
    · obtain rfl := Option.some.inj hleft
      intro own hown d hd
      obtain rfl := Option.some.inj hown
      obtain ⟨s, hs, hid⟩ := mem_sessionIds.1 (h ds hds d (keptDatapoints_subset ds hd))
      refine mem_sessionIds.2 ⟨s, List.mem_filter.2 ⟨hs, ?_⟩, hid⟩
      rw [Bool.or_eq_true, List.contains_iff_mem, hid]
      exact .inr (List.mem_map_of_mem hd)

/-- A line that the sessions have left is as any further deletion of their labels leaves it. -/
theorem withoutLabels_append (h : l.Backed) (hleft : l.withoutLabels ids labels = some l')
    (hout : ∀ id ∈ l'.sessionIds, id ∉ ids) :
    l.withoutLabels ids (labels ++ labels') = some l' := by
  cases hds : l.datapoints with
  | none => rw [withoutLabels_of_none hds, ← hleft, withoutLabels_of_none hds]
  | some ds =>
    have hbacked := h.withoutLabels hleft
    rw [withoutLabels_of_some hds] at hleft
    rw [withoutLabels_of_some hds, ← keptDatapoints_keptDatapoints, ← hleft]
    -- no datapoint that the first deletion has kept is of one of the sessions
    congr 1
    refine List.filter_eq_self.2 fun d hd => ?_
    have hown : l'.datapoints = some (keptDatapoints ids labels ds) := by
      rw [cutDown] at hleft
      split at hleft
      · cases hleft
      · rw [← Option.some.inj hleft]
    rw [Bool.or_eq_true, Bool.not_eq_true', List.contains_eq_mem, decide_eq_false_iff_not]
    exact .inl (hout _ (hbacked _ hown d hd))

end Line

/-! ## 2. One file -/

namespace SourceFile

variable {ids labels labels' : List Nat} {f : SourceFile}

theorem withoutLabels_of_has (h : f.hasAnySession ids = true) :
    f.withoutLabels ids labels = f.edit fun _ => f.lines.filterMap fun _ l =>
      l.withoutLabels ids labels := by
  rw [withoutLabels, if_pos h, deleteLabels, edit, edit, lines_afterSessionIds]
  unfold afterSessionIds
  split
  · split <;> rfl
  · rfl

theorem withoutLabels_of_not_has (h : f.hasAnySession ids = false) :
    f.withoutLabels ids labels = f.afterSessionIds := by
  rw [withoutLabels, h, if_neg Bool.false_ne_true]

theorem opened_withoutLabels (h : f.hasAnySession ids = true) :
    (f.withoutLabels ids labels).opened = f.withoutLabels ids labels := by
  rw [withoutLabels_of_has h]
  rfl

/-- Two deletions of labels from a file are one, whether or not the second looks at the lines. -/
theorem withoutLabels_withoutLabels (h : ∀ n l, f.lines.get? n = some l → l.Backed) :
    (f.withoutLabels ids labels).withoutLabels ids labels' =
      f.withoutLabels ids (labels ++ labels') := by
  cases hany : f.hasAnySession ids with
  | false =>
    have hagain : f.afterSessionIds.hasAnySession ids = false := by
      rw [hasAnySession_afterSessionIds, hany]
    rw [withoutLabels_of_not_has hany, withoutLabels_of_not_has hany,
      withoutLabels_of_not_has hagain, afterSessionIds_afterSessionIds]
  | true =>
    rw [withoutLabels_of_has hany, withoutLabels_of_has hany]
    cases hleft : (f.edit fun _ => f.lines.filterMap fun _ l =>
        l.withoutLabels ids labels).hasAnySession ids with
    | true =>
      rw [withoutLabels_of_has hleft]
      refine congrArg (fun table => f.edit fun _ => table) (Table.ext_get? fun n => ?_)
      rw [Table.get?_filterMap, lines_edit, Table.get?_filterMap, Table.get?_filterMap,
        Option.bind_assoc]
      exact congrArg (f.lines.get? n).bind (funext fun l => Line.withoutLabels_withoutLabels)
    | false =>
      rw [withoutLabels_of_not_has hleft, afterSessionIds_edit]
      refine congrArg (fun table => f.edit fun _ => table) (Table.ext_get? fun n => ?_)
      rw [Table.get?_filterMap, Table.get?_filterMap]
      cases hl : f.lines.get? n with
      | none => rfl
      | some l =>
        rw [Option.bind_some, Option.bind_some]
        cases hw : l.withoutLabels ids labels with
        | none => rw [← Line.withoutLabels_withoutLabels, hw, Option.bind_none]
        | some l' =>
          refine (Line.withoutLabels_append (h n l hl) hw fun id hid hin => ?_).symm
          -- the file would still have the session
          have hhas : (f.edit fun _ => f.lines.filterMap fun _ l =>
              l.withoutLabels ids labels).hasAnySession ids = true := by
            refine hasAnySession_iff.2 ⟨id, ?_, hin⟩
            rw [sessionIds_edit, mem_idsOfLines]
            exact ⟨n, l', by rw [Table.get?_filterMap, hl, Option.bind_some, hw], hid⟩
          rw [hhas] at hleft
          cases hleft

end SourceFile

/-! ## 3. What stands under a name -/

namespace Row

variable {ids labels labels' : List Nat} {w : Row}

theorem withoutLabels_of_has (h : w.file.hasAnySession ids = true) :
    w.withoutLabels ids labels = if (w.file.withoutLabels ids labels).isEmpty then none
      else some (counted (w.file.withoutLabels ids labels)) := by
  unfold Row.withoutLabels
  rw [if_pos h]

theorem withoutLabels_of_not_has (h : w.file.hasAnySession ids = false) :
    w.withoutLabels ids labels = some { w with file := w.file.afterSessionIds } := by
  unfold Row.withoutLabels
  rw [h, if_neg Bool.false_ne_true, SourceFile.withoutLabels_of_not_has h]

/-- Two deletions of labels are one for what stands under a name: the second counts a file that the
first has counted once more, or takes it out, or leaves it as it is. -/
theorem withoutLabels_withoutLabels (h : ∀ n l, w.file.lines.get? n = some l → l.Backed) :
    (w.withoutLabels ids labels).bind (Row.withoutLabels ids labels') =
      w.withoutLabels ids (labels ++ labels') := by
  have hfile : (w.file.withoutLabels ids labels).withoutLabels ids labels' =
      w.file.withoutLabels ids (labels ++ labels') := SourceFile.withoutLabels_withoutLabels h
  cases hany : w.file.hasAnySession ids with
  | false =>
    have hagain : w.file.afterSessionIds.hasAnySession ids = false := by
      rw [SourceFile.hasAnySession_afterSessionIds, hany]
    rw [withoutLabels_of_not_has hany, withoutLabels_of_not_has hany, Option.bind_some,
      withoutLabels_of_not_has hagain]
    dsimp only
    rw [SourceFile.afterSessionIds_afterSessionIds]
  | true =>
    have hopened : (w.file.withoutLabels ids labels).opened = w.file.withoutLabels ids labels :=
      SourceFile.opened_withoutLabels hany
    rw [withoutLabels_of_has hany, withoutLabels_of_has hany, ← hfile]
    cases hempty : (w.file.withoutLabels ids labels).isEmpty with
    | true =>
      have hnone :
          ((w.file.withoutLabels ids labels).withoutLabels ids labels').isEmpty = true := by
        refine (Table.isEmpty_iff _).2 fun n => ?_
        rw [SourceFile.get?_withoutLabels, (Table.isEmpty_iff _).1 hempty n, Option.bind_none,
          ite_self]
      rw [hnone]
      rfl
    | false =>
      rw [if_neg Bool.false_ne_true, Option.bind_some]
      have hcounted : (counted (w.file.withoutLabels ids labels)).file =
          w.file.withoutLabels ids labels := hopened
      cases hleft : (w.file.withoutLabels ids labels).hasAnySession ids with
      | true => rw [withoutLabels_of_has (by rw [hcounted, hleft]), hcounted]
      | false =>
        -- a file that was cut down is asked for its session ids, which its lines tell
        have hasked : (w.file.withoutLabels ids labels).afterSessionIds =
            w.file.withoutLabels ids labels := by
          rw [SourceFile.withoutLabels_of_has hany, SourceFile.afterSessionIds_edit]
        rw [withoutLabels_of_not_has (by rw [hcounted, hleft]), hcounted,
          SourceFile.withoutLabels_of_not_has hleft, hasked, hempty, if_neg Bool.false_ne_true]
        refine congrArg some ?_
        rw [counted, hopened]

end Row

/-! ## 4. Reports that have the same under each name -/

namespace Report

variable {r r' r'' : Report} {ids labels labels' : List Nat} {name : String} {f : SourceFile}

theorem file?_eq_row (r : Report) (q : String) : r.file? q = (r.row? q).map (·.file) := by
  cases hf : r.file? q with
  | none => rw [row?_eq_none hf, Option.map_none]
  | some f =>
    obtain ⟨w, hw, rfl⟩ := exists_row? hf
    rw [hw, Option.map_some]

/-- Entries of one name are equal when the rows are, but for the slots and the diff totals. -/
theorem Consistent.files_eq (h : r.Consistent) (h' : r'.Consistent)
    (hrows : ∀ q, r'.row? q = r.row? q)
    (hentries : ∀ q e e', r.files.get? q = some e → r'.files.get? q = some e' →
      e'.slot = e.slot ∧ e'.diffTotals = e.diffTotals) : r'.files = r.files := by
  refine Table.ext_get? fun q => ?_
  cases he : r.files.get? q with
  | none =>
    refine Option.eq_none_iff_forall_ne_some.2 fun e' he' => ?_
    obtain ⟨f, hf⟩ := h'.file?_of_get? he'
    have hrow := hrows q
    rw [row?_of_get? he' hf] at hrow
    obtain ⟨e, hown, -⟩ := row?_eq_some.1 hrow.symm
    rw [he] at hown
    cases hown
  | some e =>
    obtain ⟨f, hf⟩ := h.file?_of_get? he
    have hrow := hrows q
    rw [row?_of_get? he hf] at hrow
    obtain ⟨e', he', -, htotals, hsessions⟩ := row?_eq_some.1 hrow
    obtain ⟨hslot, hdiff⟩ := hentries q e e' he he'
    rw [he']
    cases e
    cases e'
    cases hslot
    cases hdiff
    cases htotals
    cases hsessions
    rfl

/-- Each slot of a consistent report is empty, or has what is under some name. -/
theorem Consistent.slots_eq (h : r.Consistent) (h' : r'.Consistent) (hfiles : r'.files = r.files)
    (hfile : ∀ q, r'.file? q = r.file? q) (hlength : r'.slots.length = r.slots.length) :
    r'.slots = r.slots := by
  have hslot (q : String) : r'.slotOf? q = r.slotOf? q := by rw [slotOf?, slotOf?, hfiles]
  refine List.ext_getElem? fun i => ?_
  have hin : r'.inSlot? i = r.inSlot? i := by
    refine Option.ext fun f => ⟨fun hf => ?_, fun hf => ?_⟩
    · obtain ⟨q, hq⟩ := h'.used hf
      rw [← file?_of_slotOf? (hslot q ▸ hq), ← hfile, file?_of_slotOf? hq, hf]
    · obtain ⟨q, hq⟩ := h.used hf
      rw [← file?_of_slotOf? ((hslot q).trans hq), hfile, file?_of_slotOf? hq, hf]
  by_cases hi : i < r.slots.length
  · have hi' : i < r'.slots.length := hlength ▸ hi
    rw [inSlot?, inSlot?, List.getElem?_eq_getElem hi, List.getElem?_eq_getElem hi'] at hin
    rw [List.getElem?_eq_getElem hi, List.getElem?_eq_getElem hi']
    exact congrArg some hin
  · rw [List.getElem?_eq_none (Nat.le_of_not_lt hi),
      List.getElem?_eq_none (Nat.le_of_not_lt (hlength ▸ hi))]

/-- Consistent reports are equal when they have the same under each name, the same slots and diff
totals in their entries, and the same of what no file says. -/
theorem eq_of_rows (h : r.Consistent) (h' : r'.Consistent) (hrows : ∀ q, r'.row? q = r.row? q)
    (hentries : ∀ q e e', r.files.get? q = some e → r'.files.get? q = some e' →
      e'.slot = e.slot ∧ e'.diffTotals = e.diffTotals)
    (hlength : r'.slots.length = r.slots.length) (hsessions : r'.sessions = r.sessions)
    (hlabels : r'.labels = r.labels) (hknown : r'.knownTotals = r.knownTotals) : r' = r := by
  have hfiles := h.files_eq h' hrows hentries
  have hslots := h.slots_eq h' hfiles
    (fun q => by rw [file?_eq_row, file?_eq_row, hrows]) hlength
  cases r
  cases r'
  cases hfiles
  cases hslots
  cases hsessions
  cases hlabels
  cases hknown
  rfl

/-- A report that has lost files, while the places of all others and what diffs say of them stay. -/
structure Trims (r r' : Report) : Prop where
  entry : ∀ q e', r'.files.get? q = some e' →
    ∃ e, r.files.get? q = some e ∧ e'.slot = e.slot ∧ e'.diffTotals = e.diffTotals
  length : r'.slots.length = r.slots.length
  labels : r'.labels = r.labels

namespace Trims

theorem of_files (hfiles : r'.files = r.files) (hlength : r'.slots.length = r.slots.length)
    (hlabels : r'.labels = r.labels) : Trims r r' := by
  refine ⟨fun q e he => ⟨e, ?_, rfl, rfl⟩, hlength, hlabels⟩
  rw [← hfiles, he]

theorem refl (r : Report) : Trims r r := .of_files rfl rfl rfl

theorem changed (r : Report) : Trims r r.changed := .of_files rfl rfl rfl

theorem trans (h : Trims r r') (h' : Trims r' r'') : Trims r r'' := by
  refine ⟨fun q e'' he'' => ?_, h'.length.trans h.length, h'.labels.trans h.labels⟩
  obtain ⟨e', he', hslot', hdiff'⟩ := h'.entry q e'' he''
  obtain ⟨e, he, hslot, hdiff⟩ := h.entry q e' he'
  exact ⟨e, he, hslot'.trans hslot, hdiff'.trans hdiff⟩

theorem putFile (r : Report) (name : String) (f : SourceFile) : Trims r (r.putFile name f) := by
  refine .of_files files_putFile ?_ labels_putFile
  unfold Report.putFile
  split
  · exact List.length_set
  · rfl

theorem refresh (r : Report) (name : String) : Trims r (r.refresh name) := by
  cases hf : r.file? name with
  | none =>
    rw [refresh_of_none hf]
    exact .refl r
  | some f =>
    refine ⟨fun q e' he' => ?_, ?_, labels_refresh⟩
    · rw [get?_refresh hf] at he'
      split at he'
      · obtain ⟨e, he, rfl⟩ := Option.map_eq_some_iff.1 he'
        exact ⟨e, he, rfl, rfl⟩
      · exact ⟨e', he', rfl, rfl⟩
    · rw [refresh_of_file? hf]
      exact (putFile r name f.opened).length

theorem remove (r : Report) (name : String) : Trims r (r.remove name).2 := by
  refine ⟨fun q e' he' => ?_, ?_, labels_remove⟩
  · rw [get?_remove] at he'
    split at he'
    · cases he'
    · exact ⟨e', he', rfl, rfl⟩
  · unfold Report.remove
    split
    · exact List.length_set
    · rfl

theorem deleteLabelsIn (r : Report) (ids labels : List Nat) (name : String) :
    Trims r (deleteLabelsIn ids labels r name) := by
  unfold Report.deleteLabelsIn
  split
  · exact .refl r
  · dsimp only
    split
    · exact .changed r
    · split
      · split
        · exact ((Trims.changed r).trans (putFile _ _ _)).trans (remove _ _)
        · exact ((Trims.changed r).trans (putFile _ _ _)).trans (refresh _ _)
      · exact (Trims.changed r).trans (putFile _ _ _)

theorem deleteLabels (r : Report) (ids labels : List Nat) :
    Trims r (r.deleteLabels ids labels) := by
  unfold Report.deleteLabels
  split
  · exact .refl r
  · refine Trims.trans ?_ (.changed _)
    generalize r.names = names
    induction names generalizing r with
    | nil => exact .refl r
    | cons name rest ih => exact (deleteLabelsIn r ids labels name).trans (ih _)

end Trims

/-! ## 5. Two deletions -/

theorem deleteLabels_of_isEmpty (h : ids = [] ∨ labels = []) : r.deleteLabels ids labels = r := by
  rw [deleteLabels, if_pos (by simpa using h)]

theorem Consistent.deleteLabels (h : r.Consistent) (ids labels : List Nat) :
    (r.deleteLabels ids labels).Consistent :=
  (Each.deleteLabels (P := fun _ _ => True) ⟨h, fun _ _ _ => trivial⟩ ids labels
    fun _ _ _ hw _ => hw).consistent

/-- It does not matter in which order the labels come or how often. -/
theorem deleteLabels_congr (h : ∀ label, label ∈ labels' ↔ label ∈ labels) :
    r.deleteLabels ids labels' = r.deleteLabels ids labels := by
  have hcontains (label : Nat) : labels'.contains label = labels.contains label := by
    rw [Bool.eq_iff_iff, List.contains_iff_mem, List.contains_iff_mem, h]
  have hline : Line.withoutLabels ids labels' = Line.withoutLabels ids labels := by
    funext l
    unfold Line.withoutLabels
    simp only [hcontains]
  have hin : deleteLabelsIn ids labels' = deleteLabelsIn ids labels := by
    funext r name
    unfold deleteLabelsIn SourceFile.deleteLabels
    rw [hline]
  have hempty : labels'.isEmpty = labels.isEmpty := by
    rw [Bool.eq_iff_iff, List.isEmpty_iff, List.isEmpty_iff, List.eq_nil_iff_forall_not_mem,
      List.eq_nil_iff_forall_not_mem]
    exact forall_congr' fun label => not_congr (h label)
  rw [deleteLabels, deleteLabels, hin, hempty]

/-- Two deletions of labels are the one of all these labels. -/
theorem deleteLabels_append (h : r.Consistent)
    (hbacked : ∀ q n l, r.lineAt? q n = some l → l.Backed) (ids labels labels' : List Nat) :
    (r.deleteLabels ids labels).deleteLabels ids labels' =
      r.deleteLabels ids (labels ++ labels') := by
  by_cases hids : ids = []
  · rw [deleteLabels_of_isEmpty (.inl hids), deleteLabels_of_isEmpty (.inl hids),
      deleteLabels_of_isEmpty (.inl hids)]
  by_cases hlabels : labels = []
  · rw [deleteLabels_of_isEmpty (.inr hlabels), hlabels, List.nil_append]
  by_cases hlabels' : labels' = []
  · rw [deleteLabels_of_isEmpty (.inr hlabels'), hlabels', List.append_nil]
  have hone := h.deleteLabels ids labels
  have hboth : labels ++ labels' ≠ [] := List.append_ne_nil_of_left_ne_nil hlabels _
  have htrims := (Trims.deleteLabels r ids labels).trans (Trims.deleteLabels _ ids labels')
  have htrims' := Trims.deleteLabels r ids (labels ++ labels')
  refine eq_of_rows (h.deleteLabels ids (labels ++ labels')) (hone.deleteLabels ids labels')
    (fun q => ?_) (fun q e e' he he' => ?_) (htrims.length.trans htrims'.length.symm) ?_
    (htrims.labels.trans htrims'.labels.symm) ?_
  · rw [row?_deleteLabels hone hids hlabels', row?_deleteLabels h hids hlabels,
      row?_deleteLabels h hids hboth]
    cases hw : r.row? q with
    | none => rw [Option.bind_none, Option.bind_none, Option.bind_none]
    | some w =>
      rw [Option.bind_some, Option.bind_some]
      refine Row.withoutLabels_withoutLabels fun n l hl => hbacked q n l ?_
      rw [lineAt?_eq_row, hw, Option.bind_some, hl]
  · obtain ⟨own, hown, hslot, hdiff⟩ := htrims.entry q e' he'
    obtain ⟨own', hown', hslot', hdiff'⟩ := htrims'.entry q e he
    obtain rfl := Option.some.inj (hown.symm.trans hown')
    exact ⟨hslot.trans hslot'.symm, hdiff.trans hdiff'.symm⟩
  · rw [sessions_deleteLabels hone, sessions_deleteLabels h, sessions_deleteLabels h]
  · have hknown (r : Report) {labels : List Nat} (hlabels : labels ≠ []) :
        (r.deleteLabels ids labels).knownTotals = none := by
      rw [deleteLabels, if_neg (by simp [hids, hlabels])]
      rfl
    rw [hknown _ hlabels', hknown r hboth]

/-- **Label deletions compose.**  In a consistent report in which the session of each datapoint is
on its line, deleting two lists of labels of some sessions one after the other leaves the report
that deleting all these labels at once leaves: the same files in the same slots, with the same lines
and the same totals.  So the order of the two deletions does not matter, and a deletion that is
repeated changes nothing. -/
theorem deleteLabels_deleteLabels (h : r.isConsistent = true)
    (hbacked : ∀ q n l, r.lineAt? q n = some l → l.Backed) (ids labels labels' : List Nat) :
    (∀ both, (∀ label, label ∈ both ↔ label ∈ labels ∨ label ∈ labels') →
      (r.deleteLabels ids labels).deleteLabels ids labels' = r.deleteLabels ids both) ∧
    (r.deleteLabels ids labels).deleteLabels ids labels' =
      (r.deleteLabels ids labels').deleteLabels ids labels ∧
    (r.deleteLabels ids labels).deleteLabels ids labels = r.deleteLabels ids labels := by
  have hconsistent := isConsistent_iff.1 h
  refine ⟨fun both hboth => ?_, ?_, ?_⟩
  · rw [deleteLabels_append hconsistent hbacked]
    exact deleteLabels_congr fun label => List.mem_append.trans (hboth label).symm
  · rw [deleteLabels_append hconsistent hbacked, deleteLabels_append hconsistent hbacked]
    exact deleteLabels_congr fun label => by rw [List.mem_append, List.mem_append, or_comm]
  · rw [deleteLabels_append hconsistent hbacked]
    exact deleteLabels_congr fun label => by rw [List.mem_append, or_self]

/-- Two sessions have a datapoint each on the only line.  Without the label of the first the line
stays, and the file goes with the label of the second, as it does when both go at once. -/
theorem deleteLabels_deleteLabels_missed_run :
    let r := labelledReport { id := 0, reading := .miss } { id := 1, reading := .hit .one }
    r.isConsistent = true ∧ (∀ q n l, r.lineAt? q n = some l → l.Backed) ∧
      (r.deleteLabels [0, 1] [5]).names = ["a"] ∧
      (r.deleteLabels [0, 1] [5, 6]).names = [] ∧
      (r.deleteLabels [0, 1] [5]).deleteLabels [0, 1] [6] = r.deleteLabels [0, 1] [5, 6] := by
  intro r
  have hr : r = reportOf (labelledPair { id := 0, reading := .miss }
      { id := 1, reading := .hit .one }) := by
    rw [← merge_labelledLine Nat.zero_lt_one]
    rfl
  have hconsistent : r.isConsistent = true :=
    isConsistent_iff.2 (joined_labelledReport _ _).whole.rows.consistent
  have hbacked : ∀ q n l, r.lineAt? q n = some l → l.Backed := by
    intro q n l hl ds hds
    rw [hr] at hl
    rw [lineAt?_reportOf hl] at hds ⊢
    obtain rfl := Option.some.inj hds
    decide
  obtain ⟨hboth, -⟩ := deleteLabels_deleteLabels hconsistent hbacked [0, 1] [5] [6]
  refine ⟨hconsistent, hbacked, ?_, ?_, hboth [5, 6] fun label => by simp⟩
  · rw [hr]
    rfl
  · rw [hr]
    rfl

end Report

end CoverageLedger
