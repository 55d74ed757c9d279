import CoverageLedger.Proofs.Report.Current
import CoverageLedger.Proofs.Store.Loaded

/-!
# Totals after any history

A report has a `History` when operations, readings and reloads lead to it from an empty one.  After
a reload the totals in the manifest stand for lines that were read back from text, so they are
right only when the text gives back what they count (`ComesBack`).  Nothing else makes them stale.
-/

namespace CoverageLedger

namespace Report

variable {r r' loaded : Report} {name : String} {f : SourceFile} {w : Row}

/-! ## 1. One reload -/

/-- What is saved of a report gives back what totals count: rows that are written for read lines
do, and the numbers in the entries of the manifest lie in the ranges of their fields. -/
structure ComesBack (r : Report) : Prop where
  rows : ∀ name f, r.file? name = some f → f.isParsed = true →
    ∀ n l, f.lines.get? n = some l → Chunk.KeepsTally l
  entries : ∀ name e, r.files.get? name = some e →
    e.Fits ∧ e.toJson.Readable (Json.depthLimit - 2)

theorem Sound.comesBack (h : r.Sound) (hstore : r.Storable) : r.ComesBack where
  rows := by
    intro name f hf _ n l hl
    obtain ⟨hfits, hread⟩ := hstore.lines name f hf n l hl
    rw [Chunk.KeepsTally, Chunk.lineOfRow_text hfits hread, Option.map_some]
  entries := by
    intro name e he
    obtain ⟨-, ⟨-, hfiles⟩, -⟩ := hstore.manifest
    have hmem : (name, e) ∈ r.manifest.files.entries := by
      rw [h.manifest]
      exact (Table.get?_eq_some_iff _).1 he
    exact ⟨hstore.entries name e he,
      Json.readableFields_iff.1 hfiles (name, e.toJson) (List.mem_map.2 ⟨_, hmem, rfl⟩)⟩

theorem Current.counted (h : r.Current) : r.Counted := fun name _ _ he hf =>
  (h.rows name _ (row?_of_get? he hf)).totals

/-- What totals count of the lines of a file is there again. -/
theorem tally_reloaded {knows : Nat → Prop} (h : f.Regular knows) (name : String)
    (hrows : f.isParsed = true → ∀ n l, f.lines.get? n = some l → Chunk.KeepsTally l) :
    (reloaded name f).lines.values.map Line.tally = f.lines.values.map Line.tally := by
  cases hcontent : f.content with
  | text chunk =>
    have hsame : (reloaded name f).lines = f.lines := by
      show Chunk.lines f.encode = f.lines
      rw [SourceFile.encode, SourceFile.lines, hcontent]
    rw [hsame]
  | lines table =>
    have hparsed : f.isParsed = true := by rw [SourceFile.isParsed, hcontent]
    show (Chunk.lines f.encode).values.map Line.tally = _
    rw [encode_of_parsed hparsed]
    exact Chunk.tally_lines_encode f.sessionIds h.sound.numbers (hrows hparsed)

theorem faithful_reloaded {knows : Nat → Prop} (h : f.Regular knows) (name : String)
    (hrows : f.isParsed = true → ∀ n l, f.lines.get? n = some l → Chunk.KeepsTally l) :
    (reloaded name f).Faithful := by
  apply SourceFile.Faithful.ofChunk
  intro ids hids
  have hback := SourceFile.idsOfLines_congr (tally_reloaded h name hrows)
  change SourceFile.idsOfLines (Chunk.lines f.encode) = _ at hback
  rw [hback]
  cases hcontent : f.content with
  | text chunk =>
    refine h.faithful.header chunk ids hcontent ?_
    rw [SourceFile.encode, hcontent] at hids
    exact hids
  | lines table =>
    have hparsed : f.isParsed = true := by rw [SourceFile.isParsed, hcontent]
    have hbound : ∀ id ∈ f.sessionIds, id < Text.word32 := by
      intro id hid
      rw [h.faithful.exact, ← hback] at hid
      obtain ⟨n, l, hl, hmem⟩ := SourceFile.mem_idsOfLines.1 hid
      obtain ⟨s, hs, rfl⟩ := Line.mem_sessionIds.1 hmem
      exact Chunk.id_lt_of_lines hl s hs
    have hascending : f.sessionIds.Pairwise Precedes := by
      rw [h.faithful.exact]
      exact ascend_ascending _
    rw [encode_of_parsed hparsed, Chunk.headerIds?_encode hbound hascending] at hids
    rw [← Option.some.inj hids, h.faithful.exact]

theorem written_of_regular {knows : Nat → Prop} (h : f.Regular knows) : Written f := by
  cases hcontent : f.content with
  | text chunk =>
    obtain ⟨ids, table, hchunk⟩ := h.written chunk hcontent
    refine ⟨ids, table, ?_⟩
    rw [SourceFile.encode, hcontent, hchunk]
  | lines table => exact written_of_parsed (by rw [SourceFile.isParsed, hcontent])

theorem regular_reloaded {knows : Nat → Prop} (h : f.Regular knows) (name : String)
    (hrows : f.isParsed = true → ∀ n l, f.lines.get? n = some l → Chunk.KeepsTally l) :
    (reloaded name f).Regular knows where
  sound := .ofChunk name f.encode
  faithful := faithful_reloaded h name hrows
  written := by
    intro chunk hchunk
    cases hchunk
    exact written_of_regular h
  known := by
    intro id hid
    rw [SourceFile.idsOfLines_congr (tally_reloaded h name hrows)] at hid
    exact h.known id hid

/-- What the loaded report is made of. -/
structure LoadedFrom (r loaded : Report) : Prop where
  consistent : loaded.Consistent
  files : loaded.files = r.files
  sessions : loaded.sessions.keys = r.sessions.keys
  known : loaded.knownTotals = none
  file : ∀ q, loaded.file? q = (r.file? q).map (reloaded q)

theorem Current.loadedFrom (h : r.Current) (hback : r.ComesBack) {s : Store} {name : String}
    (hload : (s.save name r).load name = .ok loaded) : LoadedFrom r loaded := by
  rw [Store.load_save] at hload
  obtain ⟨m, hm, rfl⟩ := ofTexts_eq_ok hload
  have hmanifest := h.counted.manifest h.consistent
  have hsessions : m.sessions.keys = r.sessions.keys := (Manifest.sessions_accepted hm).1
  have hentries : m.files = r.files := by
    rw [manifestText, hmanifest] at hm
    refine Manifest.files_accepted (fun name e he => ?_) hm
    obtain ⟨f, hf⟩ := h.consistent.file?_of_get? he
    obtain ⟨hfits, hread⟩ := hback.entries name e he
    exact ⟨hfits, (h.rows name _ (row?_of_get? he hf)).bounded, hread⟩
  have hloads := h.consistent.loadsAs (fun q f hf => ?_) hm
  · exact ⟨hloads.consistent, hentries, hsessions, hloads.known, hloads.file⟩
  · obtain ⟨w, hw, rfl⟩ := exists_row? hf
    exact written_of_regular (h.rows q w hw).regular

/-- **A reload leaves totals current** when what they count comes back. -/
theorem Current.reload (h : r.Current) (hback : r.ComesBack) {s : Store} {name : String}
    (hload : (s.save name r).load name = .ok loaded) : loaded.Current := by
  have hloaded := h.loadedFrom hback hload
  refine ⟨hloaded.consistent, fun q w' hw' => ?_⟩
  obtain ⟨e, he, hf, htotals, hsessionTotals⟩ := row?_eq_some.1 hw'
  rw [hloaded.files] at he
  rw [hloaded.file] at hf
  obtain ⟨f, hown, heq⟩ := Option.map_eq_some_iff.1 hf
  have hcurrent := h.rows q _ (row?_of_get? he hown)
  have hrows := hback.rows q f hown
  have htally := tally_reloaded hcurrent.regular q hrows
  have hregular := regular_reloaded hcurrent.regular q hrows
  have hknows (id : Nat) (hid : r.Knows id) : loaded.Knows id := by
    unfold Knows at hid ⊢
    rw [Table.contains_iff] at hid ⊢
    rwa [hloaded.sessions]
  rw [heq] at htally hregular
  refine ⟨by rw [← heq]; rfl, hregular.mono hknows, ?_, ?_, ?_⟩
  · rw [← htotals, SourceFile.totals_congr htally]
    exact hcurrent.totals
  · rw [← hsessionTotals, SourceFile.sessionTotals_congr htally]
    exact hcurrent.sessionTotals
  · rw [← hsessionTotals]
    exact hcurrent.bounded

/-! ## 2. Totals of the report -/

/-- The totals of a current report are the sum of what the manifest keeps. -/
theorem Current.computedTotals (h : r.Current) : r.computedTotals =
    { Totals.sum (r.files.values.map (·.totals)) with sessions := r.sessions.size } := by
  have hfile : ∀ q ∈ r.files.entries, r.fileTotals? q.1 = some q.2.totals := by
    intro q hq
    have he : r.files.get? q.1 = some q.2 := (Table.get?_eq_some_iff _).2 hq
    obtain ⟨f, hf⟩ := h.consistent.file?_of_get? he
    rw [h.counted.fileTotals? h.consistent, hf, Option.map_some, h.counted q.1 q.2 f he hf]
  have hitems : r.names.filterMap r.fileTotals? = r.files.values.map (·.totals) := by
    rw [names, Table.keys, List.filterMap_map, Table.values, List.map_map, ← List.filterMap_eq_map]
    exact List.filterMap_congr hfile
  rw [Report.computedTotals, hitems]

/-- Nothing that the totals are made of has changed. -/
structure KeepsEntries (r r' : Report) : Prop where
  known : r'.knownTotals = r.knownTotals
  totals : r'.files.values.map (·.totals) = r.files.values.map (·.totals)
  sessions : r'.sessions = r.sessions

theorem KeepsEntries.keepsTotals (h : KeepsEntries r r') (hr : r.Current) (hr' : r'.Current)
    (hkeeps : r.KeepsTotals) : r'.KeepsTotals := by
  intro t ht
  rw [h.known] at ht
  rw [hkeeps t ht, hr.computedTotals, hr'.computedTotals, h.totals, h.sessions]

theorem keepsEntries_afterReading (r : Report) (name : String) (read : SourceFile → SourceFile) :
    KeepsEntries r (r.afterReading name read) := by
  unfold afterReading
  split
  · refine ⟨knownTotals_putFile, ?_, sessions_putFile⟩
    rw [files_putFile]
  · exact ⟨rfl, rfl, rfl⟩

theorem keepsEntries_afterDiff (r : Report) (d : Diff) : KeepsEntries r (r.afterDiff d) := by
  unfold afterDiff
  generalize d.files.entries = entries
  induction entries generalizing r with
  | nil => exact ⟨rfl, rfl, rfl⟩
  | cons e rest ih =>
    obtain ⟨path, f⟩ := e
    have hone : KeepsEntries r (if f.contributes then
        r.afterReading path fun file => file.afterLines f.addedLines else r) := by
      split
      · exact keepsEntries_afterReading r path _
      · exact ⟨rfl, rfl, rfl⟩
    have hrest := ih (if f.contributes then
      r.afterReading path fun file => file.afterLines f.addedLines else r)
    exact ⟨hrest.known.trans hone.known, hrest.totals.trans hone.totals,
      hrest.sessions.trans hone.sessions⟩

theorem keepsEntries_applyDiff (r : Report) (d : Diff) :
    KeepsEntries r (r.applyDiff d).2.2 := by
  unfold applyDiff
  split
  · exact ⟨rfl, rfl, rfl⟩
  · have hread := keepsEntries_afterDiff r d
    refine ⟨hread.known, ?_, hread.sessions⟩
    rw [← hread.totals]
    show ((r.afterDiff d).withDiffTotals (r.diffTotals d)).files.values.map _ = _
    simp only [withDiffTotals, Table.values, Table.map, List.map_map]
    refine List.map_congr_left fun e _ => ?_
    dsimp only [Function.comp_apply]
    split <;> rfl

theorem keepsEntries_repack (h : r.Consistent) : KeepsEntries r r.repack.2 := by
  rw [repack_of_consistent h]
  refine ⟨rfl, ?_, rfl⟩
  rw [Table.values_map, List.map_map]
  rfl

theorem forgets_resolvePaths (h : r.Consistent) (fixes : List (String × Option String)) :
    Forgets r (r.resolvePaths fixes) := by
  unfold resolvePaths
  induction fixes generalizing r with
  | nil => exact .inl rfl
  | cons fix rest ih =>
    obtain ⟨before, after⟩ := fix
    have hone : Forgets r (r.resolvePath before after) := by
      unfold resolvePath
      split
      · exact .inl rfl
      · split
        · exact forgets_remove r before
        · split
          · exact .inl rfl
          · exact forgets_rename h before _
    exact hone.trans (ih (h.resolvePath before after))

/-! ## 3. Histories -/

/-- One thing that happens to a report.  Files come from anywhere, as long as they can be added;
following a diff that sends a line to number zero has no result. -/
inductive Transition (r : Report) : Report → Prop
  | addSession (s : Session) : Transition r (r.addSession s).2
  | addSessionWithId (id : Nat) (s : Session) {r' : Report} :
      r.addSessionWithId id s = .ok r' → Transition r r'
  | append (f : SourceFile) (joined : Bool) :
      r.Addable f → Transition r (r.append f joined).2
  | merge (other : Report) (joined : Bool) :
      (∀ f ∈ other.sourceFiles, r.Addable f) → Transition r (r.merge other joined)
  | remove (name : String) : Transition r (r.remove name).2
  | rename (old new : String) : Transition r (r.rename old new).2
  | resolvePaths (fixes : List (String × Option String)) : Transition r (r.resolvePaths fixes)
  | shift (d : Diff) (direction : Direction) :
      r.StaysNumbered d direction → Transition r (r.shift d direction)
  | applyDiff (d : Diff) : Transition r (r.applyDiff d).2.2
  | repack : Transition r r.repack.2
  | deleteSessions (ids : List Nat) : Transition r (r.deleteSessions ids)
  | deleteLabels (ids labels : List Nat) : Transition r (r.deleteLabels ids labels)
  | changeSession (old new : Nat) {r' : Report} :
      r.changeSession old new = .ok r' → Transition r r'
  | reload (s : Store) (name : String) {r' : Report} :
      (s.save name r).load name = .ok r' → r.ComesBack → Transition r r'
  | setLabels (labels : Table Nat String) : Transition r { r with labels := some labels }
  | readTotals : Transition r r.totals.2
  | readLines (name : String) : Transition r (r.afterReading name SourceFile.opened)
  | readSessionIds (name : String) : Transition r (r.afterReading name SourceFile.afterSessionIds)
  | readDiff (d : Diff) : Transition r (r.calculateDiff d).2

/-- A report that anything leads to from an empty one. -/
inductive History : Report → Prop
  | new : History {}
  | next {r r' : Report} : History r → Transition r r' → History r'

theorem Current.readLines (h : r.Current) (name : String) :
    (r.afterReading name SourceFile.opened).Current :=
  h.afterReading name (fun _ hf => hf.opened) (fun _ => rfl) fun _ => rfl

theorem Current.readSessionIds (h : r.Current) (name : String) :
    (r.afterReading name SourceFile.afterSessionIds).Current :=
  h.afterReading name (fun _ hf => hf.afterSessionIds) (fun _ => SourceFile.name_afterSessionIds)
    fun _ => SourceFile.lines_afterSessionIds

/-- A session that is added takes no other one away. -/
theorem knows_insert {id k : Nat} {s : Session} (h : r.Knows k) :
    (r.sessions.insert id s).contains k = true := by
  unfold Table.contains
  rw [Table.get?_insert]
  split
  · rfl
  · exact h

theorem Transition.current (h : Transition r r') (hr : r.Current) : r'.Current := by
  cases h with
  | addSession s => exact hr.of_eq rfl rfl fun _ => knows_insert
  | addSessionWithId id s hok =>
    rw [addSessionWithId_eq_ok hok]
    exact hr.of_eq rfl rfl fun _ => knows_insert
  | append f joined hf => exact hr.append hf joined
  | merge other joined hother => exact hr.merge hother joined
  | remove name => exact hr.remove name
  | rename old new => exact hr.rename old new
  | resolvePaths fixes => exact hr.resolvePaths fixes
  | shift d direction hstays => exact hr.shift hstays
  | applyDiff d => exact hr.applyDiff d
  | repack => exact hr.repack
  | deleteSessions ids => exact hr.deleteSessions ids
  | deleteLabels ids labels => exact hr.deleteLabels ids labels
  | changeSession old new hok => exact hr.changeSession hok
  | reload s name hload hback => exact hr.reload hback hload
  | setLabels labels => exact hr.of_eq rfl rfl fun _ hid => hid
  | readTotals => exact hr.of_eq rfl rfl fun _ hid => hid
  | readLines name => exact hr.readLines name
  | readSessionIds name => exact hr.readSessionIds name
  | readDiff d => exact hr.afterDiff d

theorem Transition.keepsTotals (h : Transition r r') (hr : r.Current) (hkeeps : r.KeepsTotals) :
    r'.KeepsTotals := by
  have hr' := h.current hr
  cases h with
  | addSession s => exact .of_none rfl
  | addSessionWithId id s hok =>
    rw [addSessionWithId_eq_ok hok]
    exact .of_none rfl
  | append f joined hf => exact hkeeps.of_forgets (forgets_append r f joined)
  | merge other joined hother => exact hkeeps.of_forgets (forgets_merge r other joined)
  | remove name => exact hkeeps.of_forgets (forgets_remove r name)
  | rename old new => exact hkeeps.of_forgets (forgets_rename hr.consistent old new)
  | resolvePaths fixes => exact hkeeps.of_forgets (forgets_resolvePaths hr.consistent fixes)
  | shift d direction hstays => exact hkeeps.of_forgets (forgets_shift r d direction)
  | applyDiff d => exact (keepsEntries_applyDiff r d).keepsTotals hr hr' hkeeps
  | repack => exact (keepsEntries_repack hr.consistent).keepsTotals hr hr' hkeeps
  | deleteSessions ids => exact hkeeps.of_forgets (forgets_deleteSessions r ids)
  | deleteLabels ids labels => exact hkeeps.of_forgets (forgets_deleteLabels r ids labels)
  | changeSession old new hok => exact hkeeps.of_forgets (forgets_changeSession hok)
  | reload s name hload hback =>
    exact .of_none (hr.loadedFrom hback hload).known
  | setLabels labels => exact hkeeps
  | readTotals =>
    intro t ht
    exact (Option.some.inj ht).symm.trans hkeeps.fst_totals
  | readLines name => exact (keepsEntries_afterReading r name _).keepsTotals hr hr' hkeeps
  | readSessionIds name => exact (keepsEntries_afterReading r name _).keepsTotals hr hr' hkeeps
  | readDiff d => exact (keepsEntries_afterDiff r d).keepsTotals hr hr' hkeeps

theorem History.current (h : r.History) : r.Current ∧ r.KeepsTotals := by
  induction h with
  | new => exact ⟨.empty, .of_none rfl⟩
  | next _ hnext ih => exact ⟨hnext.current ih.1, hnext.keepsTotals ih.1 ih.2⟩

end Report

/-! ## 4. Entries that are right -/

/-- What the manifest says of a file is counted from its lines: the totals of all, and for each
session on them, and no other, those of its own readings. -/
structure FileEntry.Counts (e : FileEntry) (f : SourceFile) : Prop where
  totals : e.totals = .ofLines f.lines.values
  ids : e.sessionTotals.ids = SourceFile.idsOfLines f.lines
  session : ∀ id ∈ SourceFile.idsOfLines f.lines,
    e.sessionTotals.get? id = some (.ofLines (f.readingsOf id))

namespace Report

variable {r : Report}

/-- **Totals that are kept are never stale.**  After any history, every entry of the manifest is
counted from the lines of its file, and the totals of the report are the sum over the entries with
the number of its sessions. -/
theorem History.counts (h : r.History) :
    (∀ name e, r.files.get? name = some e → ∃ f, r.file? name = some f ∧
      r.fileTotals? name = some e.totals ∧ e.Counts f) ∧
    r.totals.1 =
      { Totals.sum (r.files.values.map (·.totals)) with sessions := r.sessions.size } := by
  obtain ⟨hcurrent, hkeeps⟩ := h.current
  refine ⟨fun name e he => ?_, hkeeps.fst_totals.trans hcurrent.computedTotals⟩
  obtain ⟨f, hf⟩ := hcurrent.consistent.file?_of_get? he
  have hrow := hcurrent.rows name _ (row?_of_get? he hf)
  have htotals : e.totals = f.totals := hrow.totals
  have hsessions : e.sessionTotals.byId = f.sessionTotals.byId := hrow.sessionTotals
  refine ⟨f, hf, ?_, htotals, ?_, fun id hid => ?_⟩
  · rw [hcurrent.counted.fileTotals? hcurrent.consistent, hf, Option.map_some, htotals]
  · rw [← f.ids_sessionTotals, SessionTotals.ids, hsessions, SessionTotals.ids]
  · rw [SessionTotals.get?, hsessions, ← SessionTotals.get?, SourceFile.get?_sessionTotals,
      if_pos hid]

theorem addable_savedFile (name : String) (h : r.Knows 0) : r.Addable (savedFile name) where
  sound := sound_savedFile name
  declared := by
    intro ids hids
    cases hids
  known := by
    intro id hid
    obtain ⟨n, l, hl, hmem⟩ := SourceFile.mem_idsOfLines.1 hid
    rw [(eq_of_get?_savedFile hl).2] at hmem
    rw [List.mem_singleton.1 hmem]
    exact h

theorem comesBack_savedReport : savedReport.ComesBack :=
  reached_savedReport.sound.1.comesBack storable_savedReport

/-- A report that a file has left, after a reload. -/
theorem History.counts_savedReport :
    savedReport.ComesBack ∧
    ((∅ : Store).save "r" savedReport).load "r" = .ok savedReport.restored ∧
    savedReport.restored.History ∧
    ∃ f, savedReport.restored.file? "a" = some f ∧
      savedReport.restored.fileTotals? "a" = some savedEntry.totals ∧ savedEntry.Counts f := by
  have hload : ((∅ : Store).save "r" savedReport).load "r" = .ok savedReport.restored := by
    rw [Store.load_save]
    exact reached_savedReport.sound.1.ofTexts storable_savedReport
  have hsession : History ((({} : Report).addSession {}).2) := .next .new (.addSession {})
  have hfirst := hsession.next (.append _ true (addable_savedFile "b" rfl))
  have hsecond := hfirst.next (.append _ true (addable_savedFile "a" rfl))
  have hsaved : savedReport.History := hsecond.next (.remove "b")
  have hloaded := hsaved.next (.reload ∅ "r" hload comesBack_savedReport)
  exact ⟨comesBack_savedReport, hload, hloaded, (History.counts hloaded).1 "a" savedEntry rfl⟩

/-! What is read back of the largest share under one is a hit. -/

/-- A line of no session whose share is the number before one. -/
def nearlyLine : Line :=
  { reading := .fraction { Binary64.one with rank := Binary64.one.rank - 1 } }

def nearlyFile : SourceFile :=
  { name := "a", content := .lines ((∅ : Table Nat Line).insert 1 nearlyLine) }

def nearlyReport : Report := (({} : Report).append nearlyFile).2

/-- A file whose header leaves out session 1, asked for its sessions. -/
def toldFile : SourceFile :=
  SourceFile.afterSessionIds
    { name := "a"
      content := .text
        "\x7b\"present_sessions\":[0]\x7d\n[1,null,[[0,1],[1,1]],null,null,null]" }

/-- The report of sessions 0 and 1. -/
def pairReport : Report := ((({} : Report).addSession {}).2.addSession {}).2

theorem addable_nearlyFile : ({} : Report).Addable nearlyFile where
  sound := by
    refine ⟨fun n l hl => ?_, fun ids hids => by cases hids⟩
    have hmem : (n, l) ∈ [(1, nearlyLine)] := (Table.get?_eq_some_iff _).1 hl
    rw [(Prod.mk.inj (List.mem_singleton.1 hmem)).1]
    decide
  declared := fun ids hids => by cases hids
  known := by decide

/-- A reload whose text does not give back the reading leaves an entry with a partial line that the
file no longer has; a file with a wrong account of its sessions is passed over by a deletion, which
takes the session from the entry all the same. -/
theorem entry_outlasts_lines :
    (nearlyReport.History ∧
      ∃ loaded e f, ((∅ : Store).save "r" nearlyReport).load "r" = .ok loaded ∧
        loaded.files.get? "a" = some e ∧ loaded.file? "a" = some f ∧
        e.totals.partials = 1 ∧ (Totals.ofLines f.lines.values).partials = 0) ∧
    ((∀ id ∈ SourceFile.idsOfLines toldFile.lines, pairReport.Knows id) ∧
      ∃ e f, ((pairReport.append toldFile).2.deleteSessions [1]).files.get? "a" = some e ∧
        ((pairReport.append toldFile).2.deleteSessions [1]).file? "a" = some f ∧
        e.sessionTotals.ids = [0] ∧ SourceFile.idsOfLines f.lines = [0, 1]) := by
  refine ⟨⟨History.new.next (.append _ true addable_nearlyFile), ?_⟩, ?_, ?_⟩
  · rw [Store.load_save]
    have hcounts : ((ofTexts nearlyReport.archive nearlyReport.manifestText).toOption.bind fun r =>
        (r.files.get? "a").bind fun e => (r.file? "a").map fun f =>
          (e.totals.partials, (Totals.ofLines f.lines.values).partials)) = some (1, 0) := by
      decide +kernel
    obtain ⟨loaded, hloaded, hcounts⟩ := Option.bind_eq_some_iff.1 hcounts
    obtain ⟨e, he, hcounts⟩ := Option.bind_eq_some_iff.1 hcounts
    obtain ⟨f, hf, hcounts⟩ := Option.map_eq_some_iff.1 hcounts
    obtain ⟨hentry, hlines⟩ := Prod.mk.inj hcounts
    refine ⟨loaded, e, f, ?_, he, hf, hentry, hlines⟩
    cases hload : ofTexts nearlyReport.archive nearlyReport.manifestText with
    | error fault =>
      rw [hload] at hloaded
      cases hloaded
    | ok own =>
      rw [hload] at hloaded
      rw [Option.some.inj hloaded]
  · decide +kernel
  · have hids : (((pairReport.append toldFile).2.deleteSessions [1]).files.get? "a").bind (fun e =>
        (((pairReport.append toldFile).2.deleteSessions [1]).file? "a").map fun f =>
          (e.sessionTotals.ids, SourceFile.idsOfLines f.lines)) = some ([0], [0, 1]) := by
      decide +kernel
    obtain ⟨e, he, hids⟩ := Option.bind_eq_some_iff.1 hids
    obtain ⟨f, hf, hids⟩ := Option.map_eq_some_iff.1 hids
    exact ⟨e, f, he, hf, Prod.mk.inj hids⟩

end Report

end CoverageLedger
