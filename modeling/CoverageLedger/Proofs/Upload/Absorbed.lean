import CoverageLedger.Proofs.Line.Absorbed
import CoverageLedger.Proofs.View.Lent

/-!
# Uploads that are added again

A report that uploads made has what it was given: a file of a tracefile that is added a second time,
and a report that is merged into it a second time, change nothing of it, neither lines nor manifest
(`added_again`).  A report says of each file whether it still has to take something from it
(`Absorbs`); a file is absorbed as soon as it was added, and stays so while files of other names are
added (`Absorbs.append_other`), which those of one report are.
-/

namespace CoverageLedger

/-! ## 1. Files -/

namespace SourceFile

/-- A file that uploads made. -/
structure Uploaded (f : SourceFile) : Prop where
  parsed : f.isParsed = true
  declared : f.declared = none
  ignore : f.ignore = none
  line : ∀ n l, f.lines.get? n = some l → l.Uploaded

variable {f g : SourceFile} {own line : Line} {n : Nat}

/-- Joining a line that changes nothing does not change the file. -/
theorem appendLine_eq_self (hparsed : f.isParsed = true) (hdeclared : f.declared = none)
    (hown : f.lines.get? n = some own) (hsame : own.merge line true = own) :
    f.appendLine n line true = f := by
  obtain ⟨name, content, declared, ignore⟩ := f
  cases content with
  | text chunk => cases hparsed
  | lines table =>
    obtain rfl : declared = none := hdeclared
    have hget : table.get? n = some own := hown
    have htable : table.insert n own = table := by
      apply Table.ext_get?
      intro k
      rw [Table.get?_insert]
      split
      · rename_i hk
        rw [hk, hget]
      · rfl
    simp only [appendLine, edit, SourceFile.lines, hget, hsame, htable]

/-- Joining lines that change nothing does not change the file. -/
theorem mergeLines_eq_self (hparsed : f.isParsed = true) (hdeclared : f.declared = none)
    {table : Table Nat Line} (h : ∀ n line, table.get? n = some line →
      ∃ own, f.lines.get? n = some own ∧ own.merge line true = own) :
    f.mergeLines table true = f := by
  have hentry : ∀ e ∈ table.entries, ∃ own, f.lines.get? e.1 = some own ∧
      own.merge e.2 true = own := fun e he => h e.1 e.2 (table.get?_eq_some_iff.2 he)
  unfold mergeLines
  generalize table.entries = entries at hentry
  induction entries with
  | nil => rfl
  | cons e rest ih =>
    obtain ⟨own, hown, hsame⟩ := hentry e List.mem_cons_self
    have hstep : (if f.ignores e.1 then f else f.appendLine e.1 e.2 true) = f := by
      rw [appendLine_eq_self hparsed hdeclared hown hsame, ite_self]
    rw [List.foldl_cons]
    show rest.foldl _ (if f.ignores e.1 then f else f.appendLine e.1 e.2 true) = f
    rw [hstep]
    exact ih fun k hk => hentry k (List.mem_cons_of_mem e hk)

namespace Uploaded

theorem opened_eq (h : f.Uploaded) : f.opened = f := Report.opened_of_isParsed h.parsed

theorem appendLine (h : f.Uploaded) (hline : line.Uploaded) :
    (f.appendLine n line true).Uploaded := by
  refine ⟨rfl, rfl, h.ignore, fun k l hl => ?_⟩
  rw [get?_appendLine] at hl
  split at hl
  · obtain rfl := Option.some.inj hl
    cases hown : f.lines.get? n with
    | none => exact hline
    | some own => exact (h.line n own hown).merge hline
  · exact h.line k l hl

theorem mergeLines (h : f.Uploaded) (hg : g.Uploaded) :
    (f.mergeLines g.lines true).Uploaded := by
  have hentry : ∀ e ∈ g.lines.entries, e.2.Uploaded := fun e he =>
    hg.line e.1 e.2 (g.lines.get?_eq_some_iff.2 he)
  unfold SourceFile.mergeLines
  generalize g.lines.entries = entries at hentry
  induction entries generalizing f with
  | nil => exact h
  | cons e rest ih =>
    refine ih ?_ fun k hk => hentry k (List.mem_cons_of_mem e hk)
    show (if f.ignores e.1 then f else f.appendLine e.1 e.2 true).Uploaded
    split
    · exact h
    · exact h.appendLine (hentry e List.mem_cons_self)

/-- The lines of a file are absorbed by the file itself. -/
theorem mergeLines_self (h : f.Uploaded) : f.mergeLines f.lines true = f :=
  mergeLines_eq_self h.parsed h.declared fun n line hline =>
    ⟨line, hline, (h.line n line hline).merge_self⟩

/-- The lines of a file are absorbed once they were joined. -/
theorem mergeLines_again (h : f.Uploaded) (hg : g.Uploaded) :
    (f.mergeLines g.lines true).mergeLines g.lines true = f.mergeLines g.lines true := by
  have hjoined := h.mergeLines hg
  refine mergeLines_eq_self hjoined.parsed hjoined.declared fun n line hline => ?_
  have hignores : f.ignores n = false := by rw [SourceFile.ignores, h.ignore]
  have hadded := hg.line n line hline
  rw [get?_mergeLines, hline]
  simp only [hignores, Bool.false_eq_true, if_false]
  refine ⟨_, rfl, ?_⟩
  cases hown : f.lines.get? n with
  | none => exact hadded.merge_self
  | some own => exact (h.line n own hown).merge_again hadded

end Uploaded

end SourceFile

theorem TracedFile.uploaded_source {f : TracedFile} {id : Nat} {g : SourceFile}
    (hrange : f.InRange) (hnumbers : f.NumbersArms) (h : f.source id = .ok g) : g.Uploaded := by
  have hlines : g.AllLines Line.Uploaded := by
    refine allLines_source (fun l hl => (hrange.lines l hl).1) (fun n s l hread hmade hbare => ?_) h
    exact ⟨.of_madeBy hmade (tellsOnly_reads hnumbers n s hread) trivial hbare.complexityOf.symm,
      .of_madeBy hmade hbare (steady_reads hrange hread) trivial⟩
  obtain ⟨hparsed, hdeclared⟩ : g.isParsed = true ∧ g.declared = none := by
    refine source_keeps (P := fun g => g.isParsed = true ∧ g.declared = none)
      (fun s n line s' hs _ hadd => ?_) ⟨rfl, rfl⟩ h
    rcases (add_cases hadd).2 with rfl | rfl
    · exact hs
    · exact ⟨rfl, rfl⟩
  exact ⟨hparsed, hdeclared, (fromTrace_source h).ignore, hlines.line⟩

/-! ## 2. Files that are absorbed -/

namespace Row

/-- What uploads put under a name: a file of that name, just counted. -/
def Uploaded (name : String) (w : Row) : Prop :=
  ∃ f : SourceFile, f.Uploaded ∧ f.name = name ∧ w = .counted f

variable {g : SourceFile} {name : String} {w : Row}

theorem uploaded_counted (h : g.Uploaded) : Uploaded g.name (.counted g.opened) :=
  ⟨g, h, rfl, by rw [h.opened_eq]⟩

theorem Uploaded.file (h : w.Uploaded name) : w.file.Uploaded ∧ w.file.name = name := by
  obtain ⟨f, hf, hname, rfl⟩ := h
  have hfile : (Row.counted f).file = f := hf.opened_eq
  rw [hfile]
  exact ⟨hf, hname⟩

theorem Uploaded.mergeLines (h : w.Uploaded name) (hg : g.Uploaded) :
    Uploaded name (.counted (w.file.mergeLines g.lines true).opened) := by
  obtain ⟨hfile, hname⟩ := h.file
  have hjoined := hfile.mergeLines hg
  refine ⟨w.file.mergeLines g.lines true, hjoined, (Report.name_mergeLines g.lines).trans hname, ?_⟩
  rw [hjoined.opened_eq]

end Row

namespace Report

variable {r r' other : Report} {f g : SourceFile} {files : List SourceFile} {name : String}

/-- A report that uploads made. -/
abbrev Uploaded (r : Report) : Prop := Each (fun name w => w.Uploaded name) r

/-- A report has all that a file says. -/
structure Absorbs (r : Report) (f : SourceFile) : Prop where
  forgotten : r.knownTotals = none
  row : ∃ own, own.isParsed = true ∧ r.row? f.name = some (.counted own) ∧
    own.mergeLines f.lines true = own

/-- Adding a file that is absorbed changes nothing. -/
theorem Absorbs.append_eq_self (h : r.Absorbs f) (hne : f.isEmpty = false) :
    (r.append f).2 = r := by
  obtain ⟨own, hparsed, hrow, hsame⟩ := h.row
  obtain ⟨e, he, hfile, htotals, hsessions⟩ := row?_eq_some.1 hrow
  have hopened := opened_of_isParsed hparsed
  have hown : r.file? f.name = some own := by
    rw [hfile, Row.counted, hopened]
  -- the entry has the totals that are counted anew
  have hfiles : (r.files.modify f.name fun e =>
      { e with totals := own.totals, sessionTotals := own.sessionTotals }) = r.files := by
    apply Table.ext_get?
    intro q
    rw [Table.get?_modify]
    split
    · rename_i hq
      rw [hq, he, Option.map_some]
      have htotals' : own.totals = e.totals := htotals.symm
      have hsessions' : own.sessionTotals = e.sessionTotals := hsessions.symm
      rw [htotals', hsessions']
    · rfl
  rw [append_of_file? hne hown, hsame, putFile_self hown, refresh_of_file? hown, hopened,
    putFile_self hown, hfiles]
  have hforgotten := h.forgotten
  obtain ⟨files, slots, sessions, labels, knownTotals⟩ := r
  obtain rfl : knownTotals = none := hforgotten
  rfl

theorem knownTotals_append (h : r.Consistent) (hne : f.isEmpty = false) :
    (r.append f).2.knownTotals = none := by
  cases hf : r.file? f.name with
  | some own =>
    rw [append_of_file? hne hf]
    rfl
  | none => rw [append_of_none hne (h.slotOf?_of_none hf)]

/-- A file is absorbed when it was added. -/
theorem Uploaded.absorbs_append (h : r.Uploaded) (hf : f.Uploaded) (hne : f.isEmpty = false) :
    (r.append f).2.Absorbs f := by
  refine ⟨knownTotals_append h.consistent hne, r.placed f true, isParsed_placed r f true, ?_, ?_⟩
  · rw [row?_append h.consistent hne, if_pos rfl]
  · unfold placed
    split
    · rename_i own hown
      obtain ⟨w, hw, rfl⟩ := h.of_file? hown
      rw [(hw.file.1.mergeLines hf).opened_eq]
      exact hw.file.1.mergeLines_again hf
    · rw [hf.opened_eq]
      exact hf.mergeLines_self

/-- A file stays absorbed while files of other names are added. -/
theorem Absorbs.append_other (h : r.Absorbs f) (hr : r.Consistent) (hname : g.name ≠ f.name) :
    (r.append g).2.Absorbs f := by
  by_cases hempty : g.isEmpty = true
  · rw [append_of_isEmpty hempty]
    exact h
  · have hne : g.isEmpty = false := Bool.eq_false_iff.2 hempty
    refine ⟨knownTotals_append hr hne, ?_⟩
    rw [row?_append hr hne, if_neg (Ne.symm hname)]
    exact h.row

theorem Uploaded.append (h : r.Uploaded) (hf : f.Uploaded) : (r.append f).2.Uploaded :=
  Each.append h f true (Row.uploaded_counted hf) fun _ hw => hw.mergeLines hf

/-- A file that was added again, empty or not, changes nothing. -/
theorem Uploaded.append_again (h : r.Uploaded) (hf : f.Uploaded) :
    (r.append f).2.append f = r.append f := by
  refine Prod.ext ?_ ?_
  · rw [fst_append, fst_append]
  · by_cases hempty : f.isEmpty = true
    · rw [append_of_isEmpty hempty, append_of_isEmpty hempty]
    · have hne : f.isEmpty = false := Bool.eq_false_iff.2 hempty
      exact (h.absorbs_append hf hne).append_eq_self hne

/-! ## 3. Reports that are merged -/

theorem Absorbs.foldl_append_other (h : r.Absorbs f) (hr : r.Consistent)
    (hnames : ∀ g ∈ files, g.name ≠ f.name) :
    (files.foldl (fun r g => (r.append g).2) r).Absorbs f := by
  induction files generalizing r with
  | nil => exact h
  | cons g rest ih =>
    have hstep := h.append_other hr (hnames g List.mem_cons_self)
    exact ih hstep (hr.append g true) fun k hk => hnames k (List.mem_cons_of_mem g hk)

/-- Files of different names are all absorbed when they were added. -/
theorem Uploaded.absorbs_foldl_append (h : r.Uploaded) (hfiles : ∀ f ∈ files, f.Uploaded)
    (hapart : files.Pairwise fun f g => f.name ≠ g.name) :
    ∀ f ∈ files, f.isEmpty = false → (files.foldl (fun r g => (r.append g).2) r).Absorbs f := by
  induction files generalizing r with
  | nil => exact fun f hf => absurd hf List.not_mem_nil
  | cons g rest ih =>
    obtain ⟨hg, hrest⟩ := List.pairwise_cons.1 hapart
    have hgfile := hfiles g List.mem_cons_self
    intro f hf hne
    rcases List.mem_cons.1 hf with rfl | hf
    · exact (h.absorbs_append hgfile hne).foldl_append_other (h.consistent.append f true)
        fun k hk => Ne.symm (hg k hk)
    · exact ih (h.append hgfile) (fun k hk => hfiles k (List.mem_cons_of_mem g hk)) hrest f hf hne

theorem foldl_append_eq_self (h : ∀ f ∈ files, f.isEmpty = false → r.Absorbs f) :
    files.foldl (fun r g => (r.append g).2) r = r := by
  induction files with
  | nil => rfl
  | cons f rest ih =>
    have hstep : (r.append f).2 = r := by
      by_cases hempty : f.isEmpty = true
      · rw [append_of_isEmpty hempty]
      · have hne : f.isEmpty = false := Bool.eq_false_iff.2 hempty
        exact (h f List.mem_cons_self hne).append_eq_self hne
    rw [List.foldl_cons, hstep]
    exact ih fun g hg => h g (List.mem_cons_of_mem f hg)

/-- A file that a report has stands there under its own name. -/
theorem Uploaded.of_inSlot? (h : r.Uploaded) {e : FileEntry} (he : r.files.get? name = some e)
    (hf : r.inSlot? e.slot = some f) : f.Uploaded ∧ f.name = name := by
  have hfile : r.file? name = some f := by rw [file?_of_slotOf? (slotOf?_of_get? he), hf]
  obtain ⟨w, hw, rfl⟩ := h.of_file? hfile
  exact hw.file

theorem Uploaded.sourceFiles (h : r.Uploaded) : ∀ f ∈ r.sourceFiles, f.Uploaded := by
  intro f hf
  obtain ⟨e, he, hin⟩ := List.mem_filterMap.1 hf
  obtain ⟨name, hname⟩ := r.files.mem_values_iff.1 he
  exact (h.of_inSlot? hname hin).1

theorem Uploaded.names_apart (h : r.Uploaded) :
    r.sourceFiles.Pairwise fun f g => f.name ≠ g.name := by
  unfold Report.sourceFiles Table.values
  rw [List.pairwise_filterMap, List.pairwise_map]
  refine r.files.ascending.imp_of_mem fun {a b} ha hb hlt f hf g hg => ?_
  -- the entries are under names in order, and the files have these names
  have hfname := (h.of_inSlot? (r.files.get?_eq_some_iff.2 ha) hf).2
  have hgname := (h.of_inSlot? (r.files.get?_eq_some_iff.2 hb) hg).2
  rw [hfname, hgname]
  exact hlt.ne

/-- A report that was merged into another one changes nothing when it is merged again. -/
theorem Uploaded.merge_again (h : r.Uploaded) (hother : other.Uploaded) :
    (r.merge other).merge other = r.merge other :=
  foldl_append_eq_self (h.absorbs_foldl_append hother.sourceFiles hother.names_apart)

/-! ## 4. Uploads -/

theorem Uploaded.addUploads {uploads : List (List TracedFile × Upload)} (h : r.Uploaded)
    (hparsed : ∀ u ∈ uploads, ∃ bytes, TracedFile.ofBytes? bytes = .ok u.1)
    (hok : r.addUploads uploads = .ok r') : r'.Uploaded := by
  refine addUploads_keeps (fun u hu r summary r' hr hadd => ?_) h hok
  obtain ⟨bytes, hbytes⟩ := hparsed u hu
  refine Each.addUpload hr hadd fun f hf g hg => ?_
  have hgfile := TracedFile.uploaded_source (TracedFile.inRange_of_ofBytes? hbytes f hf)
    (TracedFile.numbersArms_of_ofBytes? hbytes f hf) hg
  exact ⟨Row.uploaded_counted hgfile, fun _ hw => hw.mergeLines hgfile⟩

theorem exists_uploaded {uploads : List (List TracedFile × Upload)}
    (hparsed : ∀ u ∈ uploads, ∃ bytes, TracedFile.ofBytes? bytes = .ok u.1) :
    ∃ r : Report, Report.addUploads {} uploads = .ok r ∧ r.Uploaded := by
  obtain ⟨r, hr, -⟩ := addUploads_of_parsed hparsed
  exact ⟨r, hr, Uploaded.addUploads .empty hparsed hr⟩

/-- **What is added again is absorbed.**  For every report that uploads made, a file of a tracefile
that is added twice, under any session, leaves the report that adding it once leaves, with all its
lines and totals; and so does a whole report that uploads made and that is merged twice. -/
theorem added_again (uploads others : List (List TracedFile × Upload)) (files : List TracedFile)
    (hparsed : ∀ u ∈ uploads, ∃ bytes, TracedFile.ofBytes? bytes = .ok u.1)
    (hothers : ∀ u ∈ others, ∃ bytes, TracedFile.ofBytes? bytes = .ok u.1)
    (hfiles : ∃ bytes, TracedFile.ofBytes? bytes = .ok files) :
    ∃ r other, addUploads {} uploads = .ok r ∧ addUploads {} others = .ok other ∧
      (∀ f ∈ files, ∀ id, ∃ g, f.source id = .ok g ∧ (r.append g).2.append g = r.append g) ∧
      (r.merge other).merge other = r.merge other := by
  obtain ⟨r, hr, hmade⟩ := exists_uploaded hparsed
  obtain ⟨other, hother, hmade'⟩ := exists_uploaded hothers
  refine ⟨r, other, hr, hother, fun f hf id => ?_, hmade.merge_again hmade'⟩
  obtain ⟨bytes, hbytes⟩ := hfiles
  have hrange := TracedFile.inRange_of_ofBytes? hbytes f hf
  obtain ⟨g, hg, -⟩ := f.source_reads (fun l hl => (hrange.lines l hl).1) id
  have hnumbers := TracedFile.numbersArms_of_ofBytes? hbytes f hf
  exact ⟨g, hg, hmade.append_again (TracedFile.uploaded_source hrange hnumbers hg)⟩

/-- A line that was missed by one upload and has arms in another meets the arms once more, under the
session of the first one. -/
theorem added_again_missed_branched :
    (∀ u ∈ [missedUpload], ∃ bytes, TracedFile.ofBytes? bytes = .ok u.1) ∧
    (∀ u ∈ [reachedUpload, branchedUpload], ∃ bytes, TracedFile.ofBytes? bytes = .ok u.1) ∧
    (∃ bytes, TracedFile.ofBytes? bytes = .ok branchedUpload.1) ∧
    ∃ r other, addUploads {} [missedUpload] = .ok r ∧
      addUploads {} [reachedUpload, branchedUpload] = .ok other ∧
      (∀ f ∈ branchedUpload.1, ∃ g, f.source 0 = .ok g ∧
        (r.append g).2.append g = r.append g) ∧
      (r.merge other).merge other = r.merge other := by
  have hreached : ∃ bytes, TracedFile.ofBytes? bytes = .ok reachedUpload.1 :=
    ⟨reachedBytes, by rfl⟩
  have hmissed : ∃ bytes, TracedFile.ofBytes? bytes = .ok missedUpload.1 := ⟨missedBytes, by rfl⟩
  have hbranched : ∃ bytes, TracedFile.ofBytes? bytes = .ok branchedUpload.1 :=
    ⟨branchedBytes, by rfl⟩
  have hparsed : ∀ u ∈ [missedUpload], ∃ bytes, TracedFile.ofBytes? bytes = .ok u.1 :=
    List.forall_mem_singleton.2 hmissed
  have hothers : ∀ u ∈ [reachedUpload, branchedUpload],
      ∃ bytes, TracedFile.ofBytes? bytes = .ok u.1 :=
    List.forall_mem_cons.2 ⟨hreached, List.forall_mem_singleton.2 hbranched⟩
  obtain ⟨r, other, hr, hother, happend, hmerge⟩ := added_again _ _ _ hparsed hothers hbranched
  exact ⟨hparsed, hothers, hbranched, r, other, hr, hother, fun f hf => happend f hf 0, hmerge⟩

end Report

end CoverageLedger
