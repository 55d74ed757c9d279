import CoverageLedger.Proofs.Line.Sessions
import CoverageLedger.Proofs.Report.Each
import CoverageLedger.Proofs.Report.Reached
import CoverageLedger.Proofs.SourceFile.Tally

/-!
# Totals that are kept are never stale

Totals of a file are kept in the manifest, and those of the report once they were asked for.  A row
is `Current` when what the manifest keeps is what counting the lines of the file gives.  Every
operation on a report leaves rows current: it counts lines again, or it changes what was kept along
with them.  For that the file must know its sessions, so that a deletion does not pass it over,
and the sessions on its lines must be those of the report, so that no session takes the place of
another.
-/

namespace CoverageLedger

/-! ## 1. Files -/

namespace SourceFile

/-- A file of a report that knows some sessions. -/
structure Regular (knows : Nat → Prop) (f : SourceFile) : Prop where
  sound : f.Sound
  faithful : f.Faithful
  /-- Lines that are unread have been written by a report. -/
  written : ∀ chunk, f.content = .text chunk → ∃ ids table, chunk = Chunk.encode ids table
  known : ∀ id ∈ idsOfLines f.lines, knows id

variable {knows knows' : Nat → Prop} {f g : SourceFile}

theorem name_withoutSessions (ids : List Nat) : (f.withoutSessions ids).name = f.name := by
  unfold withoutSessions
  split <;> exact name_afterSessionIds

theorem name_withoutLabels (ids labels : List Nat) :
    (f.withoutLabels ids labels).name = f.name := by
  unfold withoutLabels
  split <;> exact name_afterSessionIds

theorem name_changeSessionId (old new : Nat) : (f.changeSessionId old new).name = f.name := by
  unfold changeSessionId
  split
  · rfl
  · exact name_afterSessionIds

namespace Regular

theorem mono (h : f.Regular knows) (hknows : ∀ id, knows id → knows' id) : f.Regular knows' :=
  ⟨h.sound, h.faithful, h.written, fun id hid => hknows id (h.known id hid)⟩

theorem opened (h : f.Regular knows) : f.opened.Regular knows where
  sound := h.sound.opened
  faithful := h.faithful.opened
  written := by
    intro chunk hchunk
    cases hchunk
  known := h.known

theorem afterLines (h : f.Regular knows) (numbers : List Nat) :
    (f.afterLines numbers).Regular knows := by
  unfold SourceFile.afterLines
  split
  · exact h
  · exact h.opened

theorem afterSessionIds (h : f.Regular knows) : f.afterSessionIds.Regular knows where
  sound := h.sound.afterSessionIds
  faithful := h.faithful.afterSessionIds
  written := by
    unfold SourceFile.afterSessionIds
    split
    · split
      · exact h.written
      · exact h.opened.written
    · exact h.written
  known := by
    rw [lines_afterSessionIds]
    exact h.known

theorem withName (h : f.Regular knows) (name : String) : Regular knows { f with name } :=
  ⟨h.sound.withName name, h.faithful.withName name, h.written, h.known⟩

/-- Lines that are changed have only to keep to the sessions that are known. -/
theorem edit {change : Table Nat Line → Table Nat Line} (hsound : (f.edit change).Sound)
    (hknown : ∀ n l, (change f.lines).get? n = some l → ∀ s ∈ l.sessions, knows s.id) :
    (f.edit change).Regular knows where
  sound := hsound
  faithful := Faithful.edit change
  written := by
    intro chunk hchunk
    cases hchunk
  known := by
    intro id hid
    obtain ⟨n, l, hl, hmem⟩ := mem_idsOfLines.1 hid
    obtain ⟨s, hs, rfl⟩ := Line.mem_sessionIds.1 hmem
    exact hknown n l hl s hs

theorem knows_of_mem (h : f.Regular knows) {n : Nat} {l : Line} (hl : f.lines.get? n = some l)
    {s : LineSession} (hs : s ∈ l.sessions) : knows s.id :=
  h.known s.id (mem_idsOfLines.2 ⟨n, l, hl, Line.mem_sessionIds.2 ⟨s, hs, rfl⟩⟩)

theorem mergeLines (h : f.Regular knows) (hg : ∀ n l, g.lines.get? n = some l → n ≠ 0)
    (hgknown : ∀ id ∈ idsOfLines g.lines, knows id) (joined : Bool) :
    (f.mergeLines g.lines joined).opened.Regular knows where
  sound := (h.sound.mergeLines hg joined).opened
  faithful := (h.faithful.mergeLines g.lines joined).opened
  written := by
    intro chunk hchunk
    cases hchunk
  known := by
    intro id hid
    rw [lines_opened] at hid
    obtain ⟨n, l, hl, hmem⟩ := mem_idsOfLines.1 hid
    have hother : ∀ l', g.lines.get? n = some l' → ∀ s ∈ l'.sessions, knows s.id :=
      fun l' hl' s hs =>
        hgknown s.id (mem_idsOfLines.2 ⟨n, l', hl', Line.mem_sessionIds.2 ⟨s, hs, rfl⟩⟩)
    obtain ⟨s, hs, rfl⟩ := Line.mem_sessionIds.1 hmem
    rw [get?_mergeLines] at hl
    split at hl
    · rename_i l' hl'
      split at hl
      · exact h.knows_of_mem hl hs
      · obtain rfl := Option.some.inj hl
        cases hown : f.lines.get? n with
        | none =>
          rw [hown] at hs
          exact hother l' hl' s hs
        | some own =>
          rw [hown] at hs
          -- a line that is joined has the sessions of both
          obtain ⟨t, ht, hid⟩ := LineSession.exists_id_of_mem_mergeLists hs
          rw [← hid]
          rcases ht with ht | ht
          · exact h.knows_of_mem hown ht
          · exact hother l' hl' t ht
    · exact h.knows_of_mem hl hs

theorem withoutSessions (h : f.Regular knows) (ids : List Nat) :
    (f.withoutSessions ids).Regular fun id => knows id ∧ id ∉ ids where
  sound := h.sound.withoutSessions ids
  faithful := h.faithful.withoutSessions ids
  written := by
    unfold SourceFile.withoutSessions
    split
    · intro chunk hchunk
      cases hchunk
    · exact h.afterSessionIds.written
  known := by
    intro id hid
    rw [← (h.faithful.withoutSessions ids).exact,
      SourceFile.mem_sessionIds_withoutSessions h.faithful.exact, h.faithful.exact] at hid
    exact ⟨h.known id hid.1, hid.2⟩

theorem withoutLabels (h : f.Regular knows) (ids labels : List Nat) :
    (f.withoutLabels ids labels).Regular knows := by
  unfold SourceFile.withoutLabels
  split
  · refine .edit (h.sound.afterSessionIds.deleteLabels ids labels) fun n l hl s hs => ?_
    rw [Table.get?_filterMap, lines_afterSessionIds] at hl
    obtain ⟨own, hown, hkept⟩ := Option.bind_eq_some_iff.1 hl
    refine h.knows_of_mem hown ?_
    unfold Line.withoutLabels at hkept
    split at hkept
    · obtain rfl := Option.some.inj hkept
      exact hs
    · dsimp only at hkept
      split at hkept
      · cases hkept
      · obtain rfl := Option.some.inj hkept
        exact (List.mem_filter.1 hs).1
  · exact h.afterSessionIds

theorem changeSessionId (h : f.Regular knows) (old new : Nat) :
    (f.changeSessionId old new).Regular fun id => id = new ∨ knows id ∧ id ≠ old := by
  have hsound := h.sound.changeSessionId old new
  unfold SourceFile.changeSessionId at hsound ⊢
  by_cases hhas : f.sessionIds.contains old = true
  · rw [if_pos hhas] at hsound ⊢
    refine .edit hsound fun n l hl s hs => ?_
    rw [Table.get?_map] at hl
    obtain ⟨own, hown, rfl⟩ := Option.map_eq_some_iff.1 hl
    obtain ⟨t, ht, rfl⟩ := List.mem_map.1 hs
    split
    · exact .inl rfl
    · rename_i hne
      exact .inr ⟨h.knows_of_mem hown ht, hne⟩
  · rw [if_neg hhas]
    have hold : old ∉ idsOfLines f.lines := by
      rw [← h.faithful.exact]
      exact fun hin => hhas (List.contains_iff_mem.2 hin)
    refine ⟨h.sound.afterSessionIds, h.faithful.afterSessionIds, h.afterSessionIds.written, ?_⟩
    intro id hid
    rw [lines_afterSessionIds] at hid
    exact .inr ⟨h.known id hid, fun heq => hold (heq ▸ hid)⟩

theorem shift (h : f.Regular knows) {hunks : List Hunk} {direction : Direction}
    (hstays : f.StaysNumbered hunks direction) : (f.shift hunks direction).2.Regular knows := by
  have hsound := h.sound.shift hstays
  unfold SourceFile.shift at hsound ⊢
  split at hsound
  · refine .edit hsound fun n l hl s hs => ?_
    have hmem := Table.mem_of_mem_ofList ((Table.get?_eq_some_iff _).1 hl)
    obtain ⟨⟨k, own⟩, hown, heq⟩ := List.mem_filterMap.1 hmem
    obtain ⟨m, -, heq⟩ := Option.map_eq_some_iff.1 heq
    obtain ⟨rfl, rfl⟩ := Prod.mk.inj heq
    exact h.knows_of_mem ((Table.get?_eq_some_iff _).2 hown) hs
  · exact h

end Regular

end SourceFile

/-! ## 2. Rows -/

/-- Erasing ids that have no totals changes nothing. -/
theorem SessionTotals.byId_foldl_erase_of_none {s : SessionTotals} {ids : List Nat}
    (h : ∀ id ∈ ids, s.get? id = none) : (ids.foldl erase s).byId = s.byId := by
  apply Table.ext_get?
  intro id
  show (ids.foldl erase s).get? id = s.get? id
  rw [get?_foldl_erase]
  split
  · rename_i hid
    rw [h id hid]
  · rfl

namespace Row

/-- What is kept of a file is what counting its lines gives. -/
structure Current (knows : Nat → Prop) (name : String) (w : Row) : Prop where
  name : w.file.name = name
  regular : w.file.Regular knows
  totals : w.totals = w.file.totals
  sessionTotals : w.sessionTotals.byId = w.file.sessionTotals.byId
  bounded : w.sessionTotals.Bounded

variable {knows knows' : Nat → Prop} {name : String} {w w' : Row} {f g : SourceFile}

theorem Current.counted (h : f.Regular knows) (hname : f.name = name) :
    (counted f).Current knows name := ⟨hname, h.opened, rfl, rfl, f.bounded_sessionTotals⟩

theorem Current.mono (h : w.Current knows name) (hknows : ∀ id, knows id → knows' id) :
    w.Current knows' name :=
  ⟨h.name, h.regular.mono hknows, h.totals, h.sessionTotals, h.bounded⟩

/-- Another state of the file with the same lines. -/
theorem Current.withFile (h : w.Current knows name) (hg : g.Regular knows') {name' : String}
    (hname : g.name = name') (hlines : g.lines = w.file.lines) :
    Current knows' name' { w with file := g } where
  name := hname
  regular := hg
  totals := by
    show w.totals = .ofLines g.lines.values
    rw [hlines, h.totals]
    rfl
  sessionTotals := by
    rw [h.sessionTotals]
    unfold SourceFile.sessionTotals
    rw [hlines]
  bounded := h.bounded

theorem Current.withoutSessions {ids : List Nat} (h : w.Current knows name)
    (hw : w.withoutSessions ids = some w') :
    w'.Current (fun id => knows id ∧ id ∉ ids) name := by
  have hname : (w.file.withoutSessions ids).name = name :=
    (SourceFile.name_withoutSessions ids).trans h.name
  have hregular := h.regular.withoutSessions ids
  have herased (s : SessionTotals)
      (hs : s.byId = (w.file.withoutSessions ids).sessionTotals.byId) :
      (ids.foldl SessionTotals.erase s).byId = s.byId := by
    apply SessionTotals.byId_foldl_erase_of_none
    intro id hid
    rw [SessionTotals.get?, hs, ← SessionTotals.get?, SourceFile.get?_sessionTotals,
      if_neg fun hmem => (hregular.known id hmem).2 hid]
  unfold Row.withoutSessions at hw
  split at hw
  · cases hw
  · obtain rfl := Option.some.inj hw
    cases hany : w.file.hasAnySession ids with
    | true =>
      simp only [if_true]
      exact ⟨hname, hregular.opened, rfl, herased _ rfl,
        (SourceFile.bounded_sessionTotals _).foldl_erase ids⟩
    | false =>
      have hkept : Current (fun id => knows id ∧ id ∉ ids) name
          { w with file := w.file.withoutSessions ids } := by
        refine h.withFile hregular hname ?_
        rw [SourceFile.withoutSessions_of_not_has hany, SourceFile.lines_afterSessionIds]
      simp only [Bool.false_eq_true, if_false]
      exact ⟨hname, hregular, hkept.totals,
        (herased _ hkept.sessionTotals).trans hkept.sessionTotals, h.bounded.foldl_erase ids⟩

theorem Current.withoutLabels {ids labels : List Nat} (h : w.Current knows name)
    (hw : w.withoutLabels ids labels = some w') : w'.Current knows name := by
  have hname : (w.file.withoutLabels ids labels).name = name :=
    (SourceFile.name_withoutLabels ids labels).trans h.name
  have hregular := h.regular.withoutLabels ids labels
  unfold Row.withoutLabels at hw
  dsimp only at hw
  split at hw
  · split at hw
    · cases hw
    · obtain rfl := Option.some.inj hw
      exact .counted hregular hname
  · rename_i hany
    obtain rfl := Option.some.inj hw
    refine h.withFile hregular hname ?_
    rw [SourceFile.withoutLabels, if_neg hany, SourceFile.lines_afterSessionIds]

theorem Current.changeSession {old new : Nat} (h : w.Current knows name) (hne : old ≠ new)
    (hfree : ¬ knows new) :
    (w.changeSession old new).Current (fun id => id = new ∨ knows id ∧ id ≠ old) name where
  name := (SourceFile.name_changeSessionId old new).trans h.name
  regular := h.regular.changeSessionId old new
  totals := h.totals.trans (Report.totals_changeSessionId old new).symm
  sessionTotals := by
    have hnew : new ∉ SourceFile.idsOfLines w.file.lines :=
      fun hin => hfree (h.regular.known new hin)
    have hmoved := SourceFile.sessionTotals_changeSessionId hne h.regular.faithful.exact hnew
    have hget (id : Nat) : w.sessionTotals.get? id = w.file.sessionTotals.get? id := by
      rw [SessionTotals.get?, h.sessionTotals, ← SessionTotals.get?]
    have hnone : w.file.sessionTotals.get? new = none := by
      rw [SourceFile.get?_sessionTotals, if_neg hnew]
    refine Eq.trans (Table.ext_get? ?_) hmoved.symm
    intro id
    show (w.sessionTotals.changeId old new).get? id =
      (w.file.sessionTotals.changeId old new).get? id
    rw [SessionTotals.get?_changeId ((hget new).trans hnone), SessionTotals.get?_changeId hnone,
      hget, hget]
  bounded := h.bounded.changeId old new

theorem Current.shift {f : DiffFile} {direction : Direction} (h : w.Current knows name)
    (hstays : f.kind = .modified → w.file.StaysNumbered f.hunks direction) :
    (w.shift f direction).Current knows name := by
  unfold Row.shift
  split
  · exact h
  · rename_i hkind
    split
    · refine .counted (h.regular.shift (hstays ?_)) ((Report.name_shift _ _).trans h.name)
      exact Decidable.not_not.1 (not_or.1 hkind).1
    · exact h

end Row

/-! ## 3. Reports -/

namespace Report

variable {r r' : Report} {name old new : String} {f g : SourceFile} {w : Row} {joined : Bool}

/-- What the manifest keeps of each file is what counting its lines gives. -/
structure Current (r : Report) : Prop where
  consistent : r.Consistent
  rows : ∀ name w, r.row? name = some w → w.Current r.Knows name

/-- A file that can be added: it has no line under number zero, what was declared of its sessions is
right, and the report has all of them. -/
structure Addable (r : Report) (f : SourceFile) : Prop where
  sound : f.Sound
  declared : ∀ ids, f.declared = some ids → ids = SourceFile.idsOfLines f.lines
  known : ∀ id ∈ SourceFile.idsOfLines f.lines, r.Knows id

/-- Adding a file reads its lines, so that only these matter. -/
theorem Addable.regular (h : r.Addable f) : f.opened.Regular r.Knows where
  sound := h.sound.opened
  faithful := by
    refine ⟨h.declared, fun chunk ids hchunk => ?_⟩
    cases hchunk
  written := by
    intro chunk hchunk
    cases hchunk
  known := h.known

theorem Addable.congr (h : r.Addable f) (hsessions : r'.sessions = r.sessions) : r'.Addable f := by
  refine ⟨h.sound, h.declared, ?_⟩
  unfold Knows
  rw [hsessions]
  exact h.known

namespace Current

theorem empty : ({} : Report).Current where
  consistent := .empty
  rows := by
    intro name w hw
    cases hw

theorem each (h : r.Current) : Each (fun name w => w.Current r.Knows name) r :=
  ⟨h.consistent, h.rows⟩

/-- Sessions that are added are no matter. -/
theorem of_each (h : Each (fun name w => w.Current r.Knows name) r')
    (hknows : ∀ id, r.Knows id → r'.Knows id) : r'.Current :=
  ⟨h.consistent, fun q w hw => (h.row q w hw).mono hknows⟩

/-- Labels and known totals are no matter. -/
theorem of_eq (h : r.Current) (hfiles : r'.files = r.files) (hslots : r'.slots = r.slots)
    (hknows : ∀ id, r.Knows id → r'.Knows id) : r'.Current :=
  of_each (h.each.of_eq hfiles hslots) hknows

/-- A reading leaves the lines of a file as they are. -/
theorem afterReading (h : r.Current) (name : String) {read : SourceFile → SourceFile}
    (hregular : ∀ f, f.Regular r.Knows → (read f).Regular r.Knows)
    (hname : ∀ f, (read f).name = f.name) (hlines : ∀ f, (read f).lines = f.lines) :
    (r.afterReading name read).Current := by
  refine of_each (h.each.afterReading name fun w hw => ?_) fun id => ?_
  · exact hw.withFile (hregular w.file hw.regular) ((hname w.file).trans hw.name) (hlines w.file)
  · exact knows_of_eq (actsAt_afterReading h.consistent name read).sessions

theorem remove (h : r.Current) (name : String) : (r.remove name).2.Current :=
  of_each (h.each.remove name) fun _ => knows_of_eq sessions_remove

/-- Adding a file counts the lines of the file that it joins. -/
theorem append (h : r.Current) (hf : r.Addable f) (joined : Bool) :
    (r.append f joined).2.Current := by
  refine of_each (h.each.append f joined (.counted hf.regular rfl) fun w hw => ?_)
    fun _ => knows_of_eq sessions_append
  refine .counted (hw.regular.mergeLines hf.sound.numbers hf.known joined) ?_
  exact (name_mergeLines f.lines).trans hw.name

theorem merge {other : Report} (h : r.Current) (hother : ∀ f ∈ other.sourceFiles, r.Addable f)
    (joined : Bool) : (r.merge other joined).Current := by
  unfold Report.merge
  generalize other.sourceFiles = files at hother
  induction files generalizing r with
  | nil => exact h
  | cons f rest ih =>
    refine ih (h.append (hother f List.mem_cons_self) joined) fun g hg => ?_
    exact (hother g (List.mem_cons_of_mem f hg)).congr sessions_append

theorem rename (h : r.Current) (old new : String) : (r.rename old new).2.Current :=
  of_each (h.each.rename old new fun _ hw => hw.withFile (hw.regular.withName new) rfl rfl)
    fun _ => knows_of_eq (sessions_rename r old new)

theorem resolvePaths (h : r.Current) (fixes : List (String × Option String)) :
    (r.resolvePaths fixes).Current :=
  of_each
    (h.each.resolvePaths fixes fun _ new _ hw => hw.withFile (hw.regular.withName new) rfl rfl)
    fun _ => knows_of_eq (sessions_resolvePaths r fixes)

theorem deleteSessions (h : r.Current) (ids : List Nat) : (r.deleteSessions ids).Current := by
  have hleft : Each (fun name w => w.Current (fun id => r.Knows id ∧ id ∉ ids) name)
      (r.deleteSessions ids) := by
    refine h.each.deleteSessions (fun hids _ _ hw => hw.mono fun id hid => ⟨hid, ?_⟩)
      fun _ _ _ hw hkept => hw.withoutSessions hkept
    rw [hids]
    exact List.not_mem_nil
  exact ⟨hleft.consistent, fun q w hw => (hleft.row q w hw).mono fun _ => knows_deleteSessions⟩

theorem deleteLabels (h : r.Current) (ids labels : List Nat) :
    (r.deleteLabels ids labels).Current :=
  of_each (h.each.deleteLabels ids labels fun _ _ _ hw hkept => hw.withoutLabels hkept)
    fun _ => knows_of_eq (sessions_deleteLabels h.consistent ids labels)

/-- A session that is renumbered takes its totals along: no file has the new id yet. -/
theorem changeSession {old new : Nat} (h : r.Current) (hok : r.changeSession old new = .ok r') :
    r'.Current := by
  obtain ⟨s, -, ⟨-, rfl⟩ | ⟨hne, hfree, rfl⟩⟩ := changeSession_cases hok
  · exact h
  · obtain ⟨heach, hsessions⟩ :=
      h.each.foldl_changeSessionIn s fun q w hw => hw.changeSession hne hfree
    refine ⟨heach.changed.consistent, fun q w hw => (heach.changed.row q w hw).mono fun id hid => ?_⟩
    exact knows_of_eq hsessions (knows_renumbered s hid)

theorem shift (h : r.Current) {d : Diff} {direction : Direction}
    (hstays : r.StaysNumbered d direction) : (r.shift d direction).Current :=
  of_each
    (h.each.shift d direction fun q w f hf hw hrow =>
      hw.shift fun hkind => hstays q f w.file hf hkind (file?_of_row? hrow))
    fun _ => knows_of_eq (sessions_shift h.consistent d direction)

theorem afterLines {w : Row} {name : String} (hw : w.Current r.Knows name) (numbers : List Nat) :
    Row.Current r.Knows name { w with file := w.file.afterLines numbers } := by
  refine hw.withFile (hw.regular.afterLines numbers) (Eq.trans ?_ hw.name)
    (SourceFile.lines_afterLines _)
  unfold SourceFile.afterLines
  split <;> rfl

theorem afterDiff (h : r.Current) (d : Diff) : (r.afterDiff d).Current :=
  of_each (h.each.afterDiff d fun _ _ numbers hw => afterLines hw numbers)
    fun _ => knows_of_eq (sessions_afterDiff r d)

theorem applyDiff (h : r.Current) (d : Diff) : (r.applyDiff d).2.2.Current :=
  of_each (h.each.applyDiff d fun _ _ numbers hw => afterLines hw numbers)
    fun _ => knows_of_eq (sessions_applyDiff r d)

theorem repack (h : r.Current) : r.repack.2.Current := by
  refine of_each h.each.repack fun _ => knows_of_eq ?_
  rw [repack_of_consistent h.consistent]

end Current

end Report

end CoverageLedger
