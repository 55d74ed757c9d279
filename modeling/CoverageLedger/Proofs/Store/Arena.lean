import CoverageLedger.Proofs.Report.Current
import CoverageLedger.Proofs.Store.Loaded

/-!
# Slots after any run

Manifest and slots are kept apart, and every operation writes to both.  They belong together after
any run of operations and reloads, whatever the files are that come in: under each name stands a
file of that name, in a slot of its own, whose chunk was written from lines.  The last of these is
what a reload needs, since the chunks of an archive are told apart by a row that no such chunk has.
-/

namespace CoverageLedger

/-! ## 1. Files -/

namespace SourceFile

variable {f : SourceFile}

/-- A file that stands under a name, with a chunk that was written from lines. -/
structure InPlace (name : String) (f : SourceFile) : Prop where
  name : f.name = name
  written : Report.Written f

namespace InPlace

variable {name : String}

theorem of_parsed (hname : f.name = name) (hparsed : f.isParsed = true) : f.InPlace name :=
  ⟨hname, Report.written_of_parsed hparsed⟩

theorem opened (hname : f.name = name) : f.opened.InPlace name := .of_parsed hname rfl

theorem edit (hname : f.name = name) (change : Table Nat Line → Table Nat Line) :
    (f.edit change).InPlace name := .of_parsed hname rfl

/-- The chunk of a file shows neither its name nor which ids were taken from its header. -/
theorem withContent (h : f.InPlace name) {g : SourceFile} {name' : String} (hname : g.name = name')
    (hcontent : g.content = f.content) : g.InPlace name' := by
  obtain ⟨-, ids, table, hwritten⟩ := h
  refine ⟨hname, ?_⟩
  cases hf : f.content with
  | text chunk =>
    refine ⟨ids, table, ?_⟩
    rw [← hwritten, encode, encode, hcontent, hf]
  | lines own =>
    apply Report.written_of_parsed
    rw [isParsed, hcontent, hf]

theorem afterSessionIds (h : f.InPlace name) : f.afterSessionIds.InPlace name := by
  unfold SourceFile.afterSessionIds
  split
  · split
    · exact h.withContent h.name rfl
    · exact .opened h.name
  · exact h

theorem afterLines (h : f.InPlace name) (numbers : List Nat) :
    (f.afterLines numbers).InPlace name := by
  unfold SourceFile.afterLines
  split
  · exact h
  · exact .opened h.name

theorem withoutSessions (h : f.InPlace name) (ids : List Nat) :
    (f.withoutSessions ids).InPlace name := by
  unfold SourceFile.withoutSessions
  split
  · exact .edit h.afterSessionIds.name _
  · exact h.afterSessionIds

theorem withoutLabels (h : f.InPlace name) (ids labels : List Nat) :
    (f.withoutLabels ids labels).InPlace name := by
  unfold SourceFile.withoutLabels
  split
  · exact .edit h.afterSessionIds.name _
  · exact h.afterSessionIds

theorem changeSessionId (h : f.InPlace name) (old new : Nat) :
    (f.changeSessionId old new).InPlace name := by
  unfold SourceFile.changeSessionId
  split
  · exact .edit h.name _
  · exact h.afterSessionIds

theorem mergeLines (h : f.InPlace name) (other : Table Nat Line) (joined : Bool) :
    (f.mergeLines other joined).opened.InPlace name :=
  .opened ((Report.name_mergeLines other).trans h.name)

end InPlace

end SourceFile

/-! ## 2. Rows -/

namespace Row

variable {w w' : Row} {name : String}

theorem inPlace_withoutSessions {ids : List Nat} (h : w.file.InPlace name)
    (hw : w.withoutSessions ids = some w') : w'.file.InPlace name := by
  have hleft := h.withoutSessions ids
  unfold withoutSessions at hw
  split at hw
  · cases hw
  · rw [← Option.some.inj hw]
    dsimp only
    split
    · exact .opened hleft.name
    · exact hleft

theorem inPlace_withoutLabels {ids labels : List Nat} (h : w.file.InPlace name)
    (hw : w.withoutLabels ids labels = some w') : w'.file.InPlace name := by
  have hleft := h.withoutLabels ids labels
  unfold withoutLabels at hw
  dsimp only at hw
  split at hw
  · split at hw
    · cases hw
    · rw [← Option.some.inj hw]
      exact .opened hleft.name
  · rw [← Option.some.inj hw]
    exact hleft

theorem inPlace_shift (h : w.file.InPlace name) (f : DiffFile) (direction : Direction) :
    (w.shift f direction).file.InPlace name := by
  unfold shift
  split
  · exact h
  · split
    · exact .opened ((Report.name_shift _ _).trans h.name)
    · exact h

end Row

/-! ## 3. Runs -/

namespace Report

variable {r r' : Report}

/-- One thing that happens to a report.  Nothing is asked of the files that are added, nor of the
numbers and texts that a reload reads. -/
inductive Operation (r : Report) : Report → Prop
  | addSession (s : Session) : Operation r (r.addSession s).2
  | addSessionWithId (id : Nat) (s : Session) {r' : Report} :
      r.addSessionWithId id s = .ok r' → Operation r r'
  | append (f : SourceFile) (joined : Bool) : Operation r (r.append f joined).2
  | merge (other : Report) (joined : Bool) : Operation r (r.merge other joined)
  | remove (name : String) : Operation r (r.remove name).2
  | rename (old new : String) : Operation r (r.rename old new).2
  | resolvePaths (fixes : List (String × Option String)) : Operation r (r.resolvePaths fixes)
  | deleteSessions (ids : List Nat) : Operation r (r.deleteSessions ids)
  | deleteLabels (ids labels : List Nat) : Operation r (r.deleteLabels ids labels)
  | changeSession (old new : Nat) {r' : Report} :
      r.changeSession old new = .ok r' → Operation r r'
  | shift (d : Diff) (direction : Direction) : Operation r (r.shift d direction)
  | applyDiff (d : Diff) : Operation r (r.applyDiff d).2.2
  | carry [PatternLanguage] (flags paths : List String) (extras : Option (Table String Json))
      {r' : Report} : Carry.report r flags paths extras = .ok r' → Operation r r'
  | repack : Operation r r.repack.2
  | reload (s : Store) (name : String) {r' : Report} :
      (s.save name r).load name = .ok r' → Operation r r'
  | setLabels (labels : Table Nat String) : Operation r { r with labels := some labels }
  | readTotals : Operation r r.totals.2
  | readLines (name : String) : Operation r (r.afterReading name SourceFile.opened)
  | readSessionIds (name : String) : Operation r (r.afterReading name SourceFile.afterSessionIds)
  | readDiff (d : Diff) : Operation r (r.calculateDiff d).2

/-- A report that any operations lead to from an empty one. -/
inductive AnyRun : Report → Prop
  | new : AnyRun {}
  | next {r r' : Report} : AnyRun r → Operation r r' → AnyRun r'

/-- Under each name stands a file that is in its place. -/
abbrev InPlace : Report → Prop := Each fun name w => w.file.InPlace name

theorem InPlace.load (h : r.InPlace) {s : Store} {name : String}
    (hload : (s.save name r).load name = .ok r') : r'.InPlace := by
  rw [Store.load_save] at hload
  obtain ⟨m, hm, rfl⟩ := ofTexts_eq_ok hload
  have hwritten : ∀ q f, r.file? q = some f → Written f := by
    intro q f hf
    obtain ⟨w, hw, rfl⟩ := h.of_file? hf
    exact hw.written
  have hloads := h.consistent.loadsAs hwritten hm
  refine ⟨hloads.consistent, fun q w hw => ?_⟩
  have hfile := file?_of_row? hw
  rw [hloads.file] at hfile
  obtain ⟨f, hf, heq⟩ := Option.map_eq_some_iff.1 hfile
  -- an unread file keeps the text that it was loaded from
  rw [← heq]
  exact ⟨rfl, hwritten q f hf⟩

theorem Operation.inPlace (h : Operation r r') (hr : r.InPlace) : r'.InPlace := by
  cases h with
  | addSession s => exact hr.of_eq rfl rfl
  | addSessionWithId id s hok =>
    rw [addSessionWithId_eq_ok hok]
    exact hr.of_eq rfl rfl
  | append f joined => exact hr.append f joined (.opened rfl) fun w hw => hw.mergeLines _ _
  | merge other joined =>
    exact hr.merge other joined (fun _ _ => .opened rfl) fun _ _ w hw => hw.mergeLines _ _
  | remove name => exact hr.remove name
  | rename old new => exact hr.rename old new fun w hw => hw.withContent rfl rfl
  | resolvePaths fixes => exact hr.resolvePaths fixes fun _ _ w hw => hw.withContent rfl rfl
  | deleteSessions ids =>
    exact hr.deleteSessions (fun _ _ _ hw => hw) fun _ _ _ hw hleft =>
      Row.inPlace_withoutSessions hw hleft
  | deleteLabels ids labels =>
    exact hr.deleteLabels ids labels fun _ _ _ hw hleft => Row.inPlace_withoutLabels hw hleft
  | changeSession old new hok =>
    obtain ⟨s, -, ⟨-, rfl⟩ | ⟨-, -, rfl⟩⟩ := changeSession_cases hok
    · exact hr
    · exact (hr.foldl_changeSessionIn s fun _ _ hw => hw.changeSessionId old new).1.changed
  | shift d direction =>
    exact hr.shift d direction fun _ _ f _ hw _ => Row.inPlace_shift hw f direction
  | applyDiff d => exact hr.applyDiff d fun _ _ numbers hw => hw.afterLines numbers
  | carry flags paths extras hok =>
    exact hr.carry hok (fun _ _ hw => hw) fun _ _ _ _ hw hleft =>
      Row.inPlace_withoutSessions hw hleft
  | repack => exact hr.repack
  | reload s name hload => exact hr.load hload
  | setLabels labels => exact hr.of_eq rfl rfl
  | readTotals => exact hr.of_eq rfl rfl
  | readLines name => exact hr.afterReading name fun w hw => .opened hw.name
  | readSessionIds name => exact hr.afterReading name fun w hw => hw.afterSessionIds
  | readDiff d => exact hr.afterDiff d fun _ _ numbers hw => hw.afterLines numbers

theorem AnyRun.inPlace (h : r.AnyRun) : r.InPlace := by
  induction h with
  | new => exact .empty
  | next _ hnext ih => exact hnext.inPlace ih

/-! ## 4. Closing up the slots -/

/-- There is one slot for each file and none is empty; the files stand in the order in which they
stood, and are found under their names as they were. -/
structure Repacked (r r' : Report) : Prop where
  asMany : r'.slots.length = r'.files.size
  full : ∀ o ∈ r'.slots, o.isSome = true
  kept : r'.slots = r.slots.filter Option.isSome
  names : r'.names = r.names
  order : ∀ a b i j, r.slotOf? a = some i → r.slotOf? b = some j →
    ∃ i' j', r'.slotOf? a = some i' ∧ r'.slotOf? b = some j' ∧ (i' < j' ↔ i < j)
  file : ∀ name, r'.file? name = r.file? name

theorem idxOf_lt_idxOf_iff {l : List Nat} (hasc : l.Pairwise Precedes) {i j : Nat} (hi : i ∈ l)
    (hj : j ∈ l) : l.idxOf i < l.idxOf j ↔ i < j := by
  have hmono {i j : Nat} (hi : i ∈ l) (hj : j ∈ l) (hlt : l.idxOf i < l.idxOf j) : i < j := by
    have hless := List.pairwise_iff_getElem.1 hasc _ _ (List.idxOf_lt_length_of_mem hi)
      (List.idxOf_lt_length_of_mem hj) hlt
    rw [List.getElem_idxOf, List.getElem_idxOf] at hless
    exact Nat.compare_eq_lt.1 hless
  refine ⟨hmono hi hj, fun hlt => ?_⟩
  rcases Nat.lt_trichotomy (l.idxOf i) (l.idxOf j) with h | h | h
  · exact h
  · exact absurd ((List.idxOf_inj hi).1 h) (by omega)
  · exact absurd (hmono hj hi h) (by omega)

theorem Consistent.repacked (h : r.Consistent) : Repacked r r.repack.2 where
  asMany := by
    have hsame := isConsistent_iff.2 h
    rw [isConsistent, Bool.and_eq_true, beq_iff_eq, beq_iff_eq] at hsame
    obtain ⟨hsize, hoccupied⟩ := hsame
    rw [repack_of_consistent h]
    show (r.slots.filter Option.isSome).length = (r.files.map _).entries.length
    rw [filter_isSome_slots r.slots 0, List.length_map, ← hoccupied, hsize, Table.size, Table.map,
      List.length_map]
  full := by
    rw [repack_of_consistent h]
    exact fun o ho => (List.mem_filter.1 ho).2
  kept := by rw [repack_of_consistent h]
  names := by
    rw [repack_of_consistent h, names, Table.keys, Table.map, List.map_map]
    rfl
  order := by
    intro a b i j hi hj
    refine ⟨_, _, by rw [slotOf?_repack h, hi, Option.map_some],
      by rw [slotOf?_repack h, hj, Option.map_some], ?_⟩
    exact idxOf_lt_idxOf_iff (occupiedFrom_ascending r.slots 0)
      (mem_occupied_iff.2 (h.filled hi)) (mem_occupied_iff.2 (h.filled hj))
  file := file?_repack h

/-- **The slots stay sound.**  After any run, the manifest fits the slots, the file that is found
under a name carries it, and closing up the slots loses and mixes up nothing.  A report whose
manifest does not fit is left alone. -/
theorem slots_stay_sound :
    (∀ r : Report, r.AnyRun →
      r.isConsistent = true ∧ (∀ name ∈ r.names, ∃ f, r.file? name = some f ∧ f.name = name) ∧
        ∃ r', r.repack = (true, r') ∧ Repacked r r') ∧
    ∀ r : Report, r.isConsistent = false → r.repack = (false, r) := by
  refine ⟨fun r hrun => ?_, fun r hr => ?_⟩
  · have hplace := hrun.inPlace
    have hsame := isConsistent_iff.2 hplace.consistent
    refine ⟨hsame, fun name hname => ?_, r.repack.2, ?_, hplace.consistent.repacked⟩
    · obtain ⟨f, hf⟩ := hplace.consistent.mem_names_iff.1 hname
      obtain ⟨w, hw, rfl⟩ := hplace.of_file? hf
      exact ⟨w.file, hf, hw.name⟩
    · refine Prod.ext ?_ rfl
      rw [repack, if_pos hsame]
  · rw [repack, hr]
    rfl

/-- A report that names the first of no slots. -/
def slotlessReport : Report := { files := (∅ : Table String FileEntry).insert "a" { slot := 0 } }

theorem anyRun_restored : savedReport.restored.AnyRun := by
  have hload : ((∅ : Store).save "r" savedReport).load "r" = .ok savedReport.restored := by
    rw [Store.load_save]
    exact reached_savedReport.sound.1.ofTexts storable_savedReport
  have hsession : AnyRun ((({} : Report).addSession {}).2) := .next .new (.addSession {})
  have hfiles := (hsession.next (.append (savedFile "b") true)).next (.append (savedFile "a") true)
  exact (hfiles.next (.remove "b")).next (.reload ∅ "r" hload)

/-- A report that a file has left and that was loaded, and one that does not fit. -/
theorem slots_stay_sound_savedReport :
    savedReport.restored.AnyRun ∧ savedReport.restored.slots.length = 2 ∧
    (∃ r', savedReport.restored.repack = (true, r') ∧ Repacked savedReport.restored r') ∧
    slotlessReport.repack = (false, slotlessReport) := by
  obtain ⟨-, -, hrepacked⟩ := slots_stay_sound.1 savedReport.restored anyRun_restored
  exact ⟨anyRun_restored, rfl, hrepacked, slots_stay_sound.2 slotlessReport (by decide)⟩

end Report

end CoverageLedger
