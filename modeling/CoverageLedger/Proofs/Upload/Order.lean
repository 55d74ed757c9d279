import CoverageLedger.Proofs.Upload.Source

/-!
# Uploads in any order

Each upload has a session of its own, which stands on a line once, after those of the uploads before
it.  So the sessions on a line are what the uploads say of it, in the order of the uploads
(`Holds`), and the reading of a line does not depend on that order (`addUploads_perm`).
-/

namespace CoverageLedger

open LineSession (join)

/-! ## 1. One line -/

namespace LineSession

theorem mergeInto_append {s : LineSession} {old rest : List LineSession}
    (h : ∀ t ∈ old, t.id ≠ s.id) : mergeInto s (old ++ rest) = old ++ mergeInto s rest := by
  induction old with
  | nil => rfl
  | cons t old ih =>
    rw [List.cons_append, mergeInto, if_neg (h t List.mem_cons_self),
      ih fun u hu => h u (List.mem_cons_of_mem t hu), List.cons_append]

theorem mergeInto_join (id : Nat) (s : LineSession) (own : Option LineSession) :
    mergeInto (s.withId id) (own.map (withId id)).toList =
      ((join own s).map (withId id)).toList := by
  cases own with
  | none => rfl
  | some t =>
    have hmerge : mergeInto (s.withId id) [t.withId id] = [(t.merge s).withId id] := by
      rw [mergeInto, id_withId, id_withId, if_pos rfl, merge_withId]
    exact hmerge

end LineSession

/-- What stands on a line: the sessions of the uploads that are done, and then that of the upload
with an id, if it has said something of the line yet. -/
def Holds (id : Nat) (done : List LineSession) (current : Option LineSession) :
    Option Line → Prop
  | none => done = [] ∧ current = none
  | some l => ∃ old, l.sessions = old ++ (current.map (LineSession.withId id)).toList ∧
      old.map LineSession.anonymous = done.map LineSession.anonymous ∧
      (∀ s ∈ old, s.id < id) ∧ l.sessions ≠ [] ∧
      l.reading = LineSession.readingOf l.sessions ∧ ∀ s ∈ l.sessions, s.reading.Plain

namespace Holds

variable {id : Nat} {done : List LineSession} {current : Option LineSession} {own : Option Line}
  {l : Line} {s : LineSession}

/-- The upload says something of the line. -/
theorem joinLine (h : Holds id done current own) (hl : l.MadeBy id s) :
    Holds id done (join current s) (some (SourceFile.joinLine true own l)) := by
  cases own with
  | none =>
    obtain ⟨rfl, rfl⟩ := h
    refine ⟨[], hl.sessions, rfl, fun t ht => absurd ht List.not_mem_nil, ?_, ?_, ?_⟩
    · rw [SourceFile.joinLine, hl.sessions]
      exact List.cons_ne_nil _ _
    · rw [SourceFile.joinLine, hl.reading, hl.sessions]
      rfl
    · intro t ht
      rw [SourceFile.joinLine, hl.sessions, List.mem_singleton] at ht
      rw [ht]
      exact hl.plain
  | some own =>
    obtain ⟨old, hsessions, hdone, hold, hne, hreading, hplain⟩ := h
    -- sessions from before have smaller ids, so the present one stands last
    have hothers : ∀ t ∈ old, t.id ≠ (s.withId id).id := fun t ht => Nat.ne_of_lt (hold t ht)
    have hmerged : LineSession.mergeLists own.sessions l.sessions =
        old ++ ((join current s).map (LineSession.withId id)).toList := by
      rw [hl.sessions, hsessions, LineSession.mergeLists, List.foldl_cons, List.foldl_nil,
        LineSession.mergeInto_append hothers, LineSession.mergeInto_join]
    have hjoined : ∃ t, join current s = some t ∧ t.reading.Plain := by
      cases current with
      | none => exact ⟨s, rfl, hl.plain⟩
      | some t =>
        refine ⟨t.merge s, rfl, LineSession.plain_merge (hplain (t.withId id) ?_) hl.plain⟩
        rw [hsessions]
        exact List.mem_append_right old (List.mem_singleton_self _)
    obtain ⟨t, ht, htplain⟩ := hjoined
    have hnonempty : (LineSession.mergeLists own.sessions l.sessions).isEmpty = false := by
      rw [hmerged, ht]
      simp
    refine ⟨old, hmerged, hdone, hold, ?_, ?_, ?_⟩
    · exact List.isEmpty_eq_false_iff.1 hnonempty
    · show (own.merge l true).reading = _
      rw [Line.merge]
      simp only [hnonempty]
      rfl
    · intro u hu
      have hu' : u ∈ old ++ ((join current s).map (LineSession.withId id)).toList := by
        rw [← hmerged]
        exact hu
      rw [ht] at hu'
      rcases List.mem_append.1 hu' with hin | hin
      · refine hplain u ?_
        rw [hsessions]
        exact List.mem_append_left _ hin
      · rw [Option.map_some, Option.toList_some, List.mem_singleton] at hin
        rw [hin]
        exact htplain

/-- The upload is over. -/
theorem close (h : Holds id done current own) :
    Holds (id + 1) (done ++ current.toList) none own := by
  cases own with
  | none =>
    obtain ⟨rfl, rfl⟩ := h
    exact ⟨rfl, rfl⟩
  | some l =>
    obtain ⟨old, hsessions, hdone, hold, hne, hreading, hplain⟩ := h
    refine ⟨l.sessions, ?_, ?_, ?_, hne, hreading, hplain⟩
    · rw [Option.map_none, Option.toList_none, List.append_nil]
    · -- the session of the upload becomes one of those that are done
      rw [hsessions, List.map_append, List.map_append, hdone]
      cases current <;> rfl
    · intro s hs
      rw [hsessions] at hs
      rcases List.mem_append.1 hs with hin | hin
      · exact Nat.lt_succ_of_lt (hold s hin)
      · cases current with
        | none => exact absurd hin List.not_mem_nil
        | some t =>
          rw [Option.map_some, Option.toList_some, List.mem_singleton] at hin
          rw [hin]
          exact Nat.lt_succ_self id

/-- Once all uploads are over, the order in which they came is not seen in the reading. -/
theorem reading_of_perm {id' : Nat} {done' : List LineSession} {own' : Option Line}
    (h : Holds id done none own) (h' : Holds id' done' none own') (hperm : done.Perm done') :
    own.map (·.reading) = own'.map (·.reading) := by
  cases own with
  | none =>
    obtain ⟨rfl, -⟩ := h
    cases own' with
    | none => rfl
    | some l' =>
      obtain ⟨old, hsessions, hdone, -, hne, -, -⟩ := h'
      rw [List.nil_perm.1 hperm, List.map_nil, List.map_eq_nil_iff] at hdone
      rw [hdone] at hsessions
      exact absurd hsessions hne
  | some l =>
    obtain ⟨old, hsessions, hdone, -, hne, hreading, hplain⟩ := h
    rw [Option.map_none, Option.toList_none, List.append_nil] at hsessions
    cases own' with
    | none =>
      obtain ⟨rfl, -⟩ := h'
      rw [List.perm_nil.1 hperm, List.map_nil, List.map_eq_nil_iff] at hdone
      rw [hdone] at hsessions
      exact absurd hsessions hne
    | some l' =>
      obtain ⟨old', hsessions', hdone', -, -, hreading', -⟩ := h'
      rw [Option.map_none, Option.toList_none, List.append_nil] at hsessions'
      -- a reading does not depend on ids, and without them the sessions are permuted
      have hanonymous : (l.sessions.map LineSession.anonymous).Perm
          (l'.sessions.map LineSession.anonymous) := by
        rw [hsessions, hsessions', hdone, hdone']
        exact hperm.map _
      have hplain' : ∀ s ∈ l.sessions.map LineSession.anonymous, s.reading.Plain := by
        intro s hs
        obtain ⟨t, ht, rfl⟩ := List.mem_map.1 hs
        exact hplain t ht
      rw [Option.map_some, Option.map_some, hreading, hreading', ← LineSession.readingOf_anonymous,
        LineSession.readingOf_perm hanonymous hplain', LineSession.readingOf_anonymous]

end Holds

/-! ## 2. One upload -/

/-- What some traced files say of a line, each joined with those before it. -/
def uploadReads (files : List TracedFile) (name : String) (n : Nat) : Option LineSession :=
  files.foldl
    (fun own f =>
      if f.reportPath = name then
        match f.reads n with
        | some s => join own s
        | none => own
      else own) none

theorem uploadReads_concat (files : List TracedFile) (f : TracedFile) (name : String) (n : Nat) :
    uploadReads (files ++ [f]) name n =
      if f.reportPath = name then
        match f.reads n with
        | some s => join (uploadReads files name n) s
        | none => uploadReads files name n
      else uploadReads files name n := by
  rw [uploadReads, List.foldl_append]
  rfl

namespace Report

variable {id : Nat} {done : List (List TracedFile)} {current : List TracedFile} {r r' : Report}

/-- A report that uploads have made: some that are done, and the first files of the one with an
id. -/
structure MadeBy (id : Nat) (done : List (List TracedFile)) (current : List TracedFile)
    (r : Report) : Prop where
  consistent : r.Consistent
  counted : r.Counted
  stored : ∀ name f, r.file? name = some f → f.isEmpty = false
  ignore : ∀ name f, r.file? name = some f → f.ignore = none
  lines : ∀ name n, Holds id (done.filterMap fun files => uploadReads files name n)
    (uploadReads current name n) (r.lineAt? name n)

namespace MadeBy

theorem empty : MadeBy 0 [] [] {} where
  consistent := .empty
  counted := fun _ _ _ h => by cases h
  stored := fun _ _ h => by cases h
  ignore := fun _ _ h => by cases h
  lines := fun _ _ => ⟨rfl, rfl⟩

/-- Only files and slots matter. -/
theorem congr (h : MadeBy id done current r) (hfiles : r'.files = r.files)
    (hslots : r'.slots = r.slots) : MadeBy id done current r' := by
  have hin (s : Nat) : r'.inSlot? s = r.inSlot? s := by rw [inSlot?, inSlot?, hslots]
  have hslot (q : String) : r'.slotOf? q = r.slotOf? q := by rw [slotOf?, slotOf?, hfiles]
  have hfile (q : String) : r'.file? q = r.file? q := file?_congr (hslot q) hin
  refine ⟨h.consistent.congr hslot fun s => by rw [hin], fun name e f he hf => ?_,
    fun name f hf => ?_, fun name f hf => ?_, fun name n => ?_⟩
  · rw [hfiles] at he
    rw [hfile] at hf
    exact h.counted name e f he hf
  · rw [hfile] at hf
    exact h.stored name f hf
  · rw [hfile] at hf
    exact h.ignore name f hf
  · rw [lineAt?, hfile]
    exact h.lines name n

/-- What is found under the name of an added file is not empty and refuses no lines. -/
theorem placed_of_reads (h : MadeBy id done current r) {reads : Nat → Option LineSession}
    {g : SourceFile} (hne : g.isEmpty = false) (hg : g.Reads id reads) :
    (r.placed g true).isEmpty = false ∧ (r.placed g true).ignore = none := by
  rw [placed]
  cases hown : r.file? g.name with
  | none => exact ⟨hne, hg.ignore⟩
  | some own =>
    refine ⟨SourceFile.isEmpty_mergeLines (h.stored g.name own hown) g.lines, ?_⟩
    show (own.mergeLines g.lines true).ignore = none
    rw [SourceFile.ignore_mergeLines, h.ignore g.name own hown]

/-- One more file of the upload is added. -/
theorem append (h : MadeBy id done current r) {f : TracedFile} {g : SourceFile}
    (hname : g.name = f.reportPath) (hg : g.Reads id f.reads) :
    MadeBy id done (current ++ [f]) (r.append g).2 where
  consistent := h.consistent.append g true
  counted := h.counted.append h.consistent g true
  stored := by
    intro name found hfound
    rcases file?_append_cases h.consistent hfound with hold | ⟨hne, rfl⟩
    · exact h.stored name found hold
    · exact (h.placed_of_reads hne hg).1
  ignore := by
    intro name found hfound
    rcases file?_append_cases h.consistent hfound with hold | ⟨hne, rfl⟩
    · exact h.ignore name found hold
    · exact (h.placed_of_reads hne hg).2
  lines := by
    intro name n
    rw [lineAt?_append h.consistent (h.ignore g.name), uploadReads_concat, ← hname]
    by_cases hq : name = g.name
    · -- the line joins what the upload said of it before
      have hline := hg.line n
      rw [if_pos hq, if_pos hq.symm]
      cases hreads : f.reads n with
      | none =>
        rw [hreads] at hline
        rw [hline]
        exact h.lines name n
      | some s =>
        rw [hreads] at hline
        obtain ⟨l, hl, hmade⟩ := hline
        rw [hl]
        exact (h.lines name n).joinLine hmade
    · rw [if_neg hq, if_neg (Ne.symm hq)]
      exact h.lines name n

theorem addTraced (h : MadeBy id done current r) {files : List TracedFile}
    (hlines : ∀ f ∈ files, ∀ l ∈ f.lines, l.line ≠ 0) :
    ∃ names r', Report.addTraced id r files = .ok (names, r') ∧
      MadeBy id done (current ++ files) r' ∧ r'.sessions = r.sessions := by
  induction files generalizing r current with
  | nil =>
    refine ⟨[], r, rfl, ?_, rfl⟩
    rw [List.append_nil]
    exact h
  | cons f rest ih =>
    obtain ⟨g, hg, hname, hreads⟩ := f.source_reads (hlines f List.mem_cons_self) id
    obtain ⟨names, r', hr', hmade, hsessions⟩ :=
      ih (h.append hname hreads) fun q hq => hlines q (List.mem_cons_of_mem f hq)
    refine ⟨if (r.append g).1 then g.name :: names else names, r', ?_, ?_,
      hsessions.trans sessions_append⟩
    · simp only [Report.addTraced, hg, hr', bind, Except.bind, pure, Except.pure]
    · rw [List.append_assoc] at hmade
      exact hmade

theorem close (h : MadeBy id done current r) : MadeBy (id + 1) (done ++ [current]) [] r where
  consistent := h.consistent
  counted := h.counted
  stored := h.stored
  ignore := h.ignore
  lines := by
    intro name n
    have hdone : (done ++ [current]).filterMap (fun files => uploadReads files name n) =
        done.filterMap (fun files => uploadReads files name n) ++
          (uploadReads current name n).toList := by
      rw [List.filterMap_append]
      cases hc : uploadReads current name n <;> simp [hc]
    rw [hdone]
    exact (h.lines name n).close

end MadeBy

/-! ## 3. Any number of uploads -/

/-- Add uploads one after the other. -/
def addUploads (r : Report) (uploads : List (List TracedFile × Upload)) : Result Report :=
  uploads.foldlM (fun r u => return (← r.addUpload u.1 u.2).2) r

/-- The sessions of the uploads so far have the first ids. -/
def NumbersSessions (k : Nat) (r : Report) : Prop :=
  ∀ id, r.sessions.contains id = true ↔ id < k

theorem size_of_numbersSessions {k : Nat} (h : NumbersSessions k r) : r.sessions.size = k := by
  have hkeys : r.sessions.keys = List.range k := by
    refine eq_of_ascending (Table.keys_ascending _) ?_ fun id => ?_
    · exact List.pairwise_lt_range.imp fun hlt => Nat.compare_eq_lt.2 hlt
    · rw [← Table.contains_iff, h, List.mem_range]
  rw [Table.size, ← List.length_map Prod.fst, ← Table.keys, hkeys, List.length_range]

theorem nextSession_of_numbersSessions {k : Nat} (h : NumbersSessions k r) : r.nextSession = k := by
  have hfree : r.sessions.contains k = false := by
    rw [Bool.eq_false_iff, ne_eq, h]
    exact Nat.lt_irrefl k
  rw [nextSession, size_of_numbersSessions h, freeFrom, hfree]
  rfl

theorem addUpload_of_madeBy {k : Nat} (h : MadeBy k done [] r) (hsessions : NumbersSessions k r)
    {files : List TracedFile} (hlines : ∀ f ∈ files, ∀ l ∈ f.lines, l.line ≠ 0)
    (upload : Upload) :
    ∃ summary r', r.addUpload files upload = .ok (summary, r') ∧
      MadeBy (k + 1) (done ++ [files]) [] r' ∧ NumbersSessions (k + 1) r' ∧
      r'.knownTotals = none := by
  have hid := nextSession_of_numbersSessions hsessions
  have hstart : MadeBy k done [] (r.addSession (sessionOf upload)).2 := h.congr rfl rfl
  obtain ⟨names, r', hr', hmade, hkept⟩ := hstart.addTraced hlines
  have hdone : MadeBy (k + 1) (done ++ [files]) [] r' := hmade.close
  refine ⟨{ session := k, files := names.length, totals := r'.sessionTotalsIn k names },
    { r'.changed with sessions := r'.sessions.modify k fun s =>
      { s with totals := some (r'.sessionTotalsIn k names) } },
    ?_, hdone.congr rfl rfl, fun id => ?_, rfl⟩
  · rw [addUpload]
    simp only [addSession, hid] at hr' ⊢
    simp only [hr', bind, Except.bind, pure, Except.pure]
  · show (r'.sessions.modify k _).contains id = true ↔ id < k + 1
    have hadded : r'.sessions = r.sessions.insert k (sessionOf upload) := by
      rw [hkept, addSession, hid]
    have hold := hsessions id
    rw [Table.contains, Table.get?_modify, hadded, Table.get?_insert]
    rw [Table.contains] at hold
    by_cases heq : id = k
    · simp [heq]
    · simp only [heq, if_false, hold]
      omega

/-- Uploads of what the parser gives never fail. -/
theorem addUploads_of_madeBy {uploads : List (List TracedFile × Upload)} {k : Nat}
    (h : MadeBy k done [] r) (hsessions : NumbersSessions k r) (hknown : r.knownTotals = none)
    (hlines : ∀ u ∈ uploads, ∀ f ∈ u.1, ∀ l ∈ f.lines, l.line ≠ 0) :
    ∃ r', r.addUploads uploads = .ok r' ∧
      MadeBy (k + uploads.length) (done ++ uploads.map Prod.fst) [] r' ∧
      NumbersSessions (k + uploads.length) r' ∧ r'.knownTotals = none := by
  induction uploads generalizing r k done with
  | nil =>
    refine ⟨r, rfl, ?_, hsessions, hknown⟩
    rw [List.map_nil, List.append_nil]
    exact h
  | cons u rest ih =>
    obtain ⟨summary, r₁, hr₁, hmade, hnumbers, hnone⟩ :=
      addUpload_of_madeBy h hsessions (hlines u List.mem_cons_self) u.2
    obtain ⟨r', hr', hmade', hnumbers', hnone'⟩ :=
      ih hmade hnumbers hnone fun q hq => hlines q (List.mem_cons_of_mem u hq)
    have hlength : k + 1 + rest.length = k + (u :: rest).length := by
      rw [List.length_cons]
      omega
    refine ⟨r', ?_, ?_, ?_, hnone'⟩
    · rw [addUploads, List.foldlM_cons, hr₁]
      exact hr'
    · rw [List.append_assoc, hlength] at hmade'
      exact hmade'
    · rw [hlength] at hnumbers'
      exact hnumbers'

/-! ## 4. Two orders -/

/-- Two reports have the same coverage: the same files with the same line numbers and readings, and
the same counts in their totals. -/
structure SameCoverage (r r' : Report) : Prop where
  names : r.names = r'.names
  readings : ∀ name, (r.file? name).map (fun f => f.lines.map fun _ l => l.reading) =
    (r'.file? name).map fun f => f.lines.map fun _ l => l.reading
  files : r.totals.1.files = r'.totals.1.files
  lines : r.totals.1.lines = r'.totals.1.lines
  hits : r.totals.1.hits = r'.totals.1.hits
  misses : r.totals.1.misses = r'.totals.1.misses
  partials : r.totals.1.partials = r'.totals.1.partials
  coverage : r.totals.1.coverage = r'.totals.1.coverage
  sessions : r.totals.1.sessions = r'.totals.1.sessions

/-- The counts that readings decide. -/
def readingCounts (t : Totals) : Nat × Nat × Nat × Nat := (t.lines, t.hits, t.misses, t.partials)

theorem readingCounts_ofLines {lines lines' : List Line}
    (h : lines.map (·.reading) = lines'.map (·.reading)) :
    readingCounts (.ofLines lines) = readingCounts (.ofLines lines') := by
  have hcount (outcome : Outcome) :
      Totals.countOutcome outcome lines = Totals.countOutcome outcome lines' := by
    have hmap (l : List Line) : Totals.countOutcome outcome l =
        (l.map (·.reading)).countP fun r => r.outcome == some outcome := by
      rw [List.countP_map]
      rfl
    rw [hmap, hmap, h]
  simp only [readingCounts, Totals.ofLines, hcount]

theorem lineAt?_eq_of_perm {k k' : Nat} {done' : List (List TracedFile)}
    (h : MadeBy k done [] r) (h' : MadeBy k' done' [] r') (hperm : done.Perm done')
    (name : String) (n : Nat) :
    (r.lineAt? name n).map (·.reading) = (r'.lineAt? name n).map (·.reading) :=
  (h.lines name n).reading_of_perm (h'.lines name n) (hperm.filterMap _)

/-- Every file of the report has a line. -/
def Stored (r : Report) : Prop := ∀ name f, r.file? name = some f → f.isEmpty = false

/-- The lines tell which names have files. -/
theorem Stored.file?_isSome_iff (h : r.Stored) (name : String) :
    (∃ f, r.file? name = some f) ↔ ∃ n, r.lineAt? name n ≠ none := by
  constructor
  · rintro ⟨f, hf⟩
    have hstored := h name f hf
    rw [Bool.eq_false_iff, SourceFile.isEmpty, ne_eq, Table.isEmpty_iff] at hstored
    obtain ⟨n, hn⟩ := Classical.not_forall.1 hstored
    refine ⟨n, ?_⟩
    rw [lineAt?, hf]
    exact hn
  · rintro ⟨n, hn⟩
    cases hf : r.file? name with
    | some f => exact ⟨f, rfl⟩
    | none =>
      rw [lineAt?, hf] at hn
      exact absurd rfl hn

theorem MadeBy.file?_isSome_iff (h : MadeBy id done current r) (name : String) :
    (∃ f, r.file? name = some f) ↔ ∃ n, r.lineAt? name n ≠ none :=
  Stored.file?_isSome_iff h.stored name

section two

variable {k : Nat} {done' : List (List TracedFile)}

theorem exists_file?_of_perm (h : MadeBy k done [] r) (h' : MadeBy k done' [] r')
    (hperm : done.Perm done') (name : String) :
    (∃ f, r.file? name = some f) ↔ ∃ f, r'.file? name = some f := by
  rw [h.file?_isSome_iff, h'.file?_isSome_iff]
  refine exists_congr fun n => not_congr ?_
  rw [← Option.map_eq_none_iff, lineAt?_eq_of_perm h h' hperm, Option.map_eq_none_iff]

theorem names_of_perm (h : MadeBy k done [] r) (h' : MadeBy k done' [] r')
    (hperm : done.Perm done') : r.names = r'.names := by
  refine eq_of_ascending (Table.keys_ascending _) (Table.keys_ascending _) fun name => ?_
  have hmem : name ∈ r.names ↔ ∃ f, r.file? name = some f := h.consistent.mem_names_iff
  have hmem' : name ∈ r'.names ↔ ∃ f, r'.file? name = some f := h'.consistent.mem_names_iff
  exact hmem.trans ((exists_file?_of_perm h h' hperm name).trans hmem'.symm)

theorem readings_of_perm (h : MadeBy k done [] r) (h' : MadeBy k done' [] r')
    (hperm : done.Perm done') (name : String) :
    (r.file? name).map (fun f => f.lines.map fun _ l => l.reading) =
      (r'.file? name).map fun f => f.lines.map fun _ l => l.reading := by
  have hsome := exists_file?_of_perm h h' hperm name
  cases hf : r.file? name with
  | none =>
    cases hf' : r'.file? name with
    | none => rfl
    | some f' =>
      obtain ⟨f, hf''⟩ := hsome.2 ⟨f', hf'⟩
      rw [hf] at hf''
      cases hf''
  | some f =>
    obtain ⟨f', hf'⟩ := hsome.1 ⟨f, hf⟩
    rw [hf', Option.map_some, Option.map_some]
    refine congrArg some (Table.ext_get? fun n => ?_)
    have hn := lineAt?_eq_of_perm h h' hperm name n
    rw [lineAt?, lineAt?, hf, hf', Option.bind_some, Option.bind_some] at hn
    rw [Table.get?_map, Table.get?_map]
    exact hn

/-- The totals of a file are counted from its readings. -/
theorem fileCounts_of_perm (h : MadeBy k done [] r) (h' : MadeBy k done' [] r')
    (hperm : done.Perm done') : (r.names.filterMap r.fileTotals?).map readingCounts =
      (r'.names.filterMap r'.fileTotals?).map readingCounts := by
  rw [List.map_filterMap, List.map_filterMap, names_of_perm h h' hperm]
  apply List.filterMap_congr
  intro name _
  rw [h.counted.fileTotals? h.consistent, h'.counted.fileTotals? h'.consistent]
  have hname := readings_of_perm h h' hperm name
  cases hf : r.file? name with
  | none =>
    rw [hf] at hname
    rw [Option.map_eq_none_iff.1 hname.symm]
  | some f =>
    rw [hf, Option.map_some] at hname
    obtain ⟨f', hf', htable⟩ := Option.map_eq_some_iff.1 hname.symm
    rw [hf', Option.map_some, Option.map_some, Option.map_some, Option.map_some]
    refine congrArg some (readingCounts_ofLines ?_)
    have hvalues := congrArg Table.values htable
    rw [Table.values, Table.values, Table.map, Table.map, List.map_map, List.map_map] at hvalues
    rw [Table.values, Table.values, List.map_map, List.map_map]
    exact hvalues.symm

theorem sameCoverage_of_perm (h : MadeBy k done [] r) (h' : MadeBy k done' [] r')
    (hperm : done.Perm done') (hsessions : NumbersSessions k r)
    (hsessions' : NumbersSessions k r') (hknown : r.knownTotals = none)
    (hknown' : r'.knownTotals = none) : SameCoverage r r' := by
  have hcounts := fileCounts_of_perm h h' hperm
  have hpart (part : Nat × Nat × Nat × Nat → Nat) :
      Totals.addUp ((r.names.filterMap r.fileTotals?).map (part ∘ readingCounts)) =
        Totals.addUp ((r'.names.filterMap r'.fileTotals?).map (part ∘ readingCounts)) := by
    rw [← List.map_map, hcounts, List.map_map]
  have hlength := congrArg List.length hcounts
  rw [List.length_map, List.length_map] at hlength
  have hlines := hpart fun c => c.1
  have hhits := hpart fun c => c.2.1
  have htotals : r.totals.1 = r.computedTotals := by
    rw [totals, hknown]
    rfl
  have htotals' : r'.totals.1 = r'.computedTotals := by
    rw [totals, hknown']
    rfl
  refine ⟨names_of_perm h h' hperm, readings_of_perm h h' hperm, ?_, ?_, ?_, ?_, ?_, ?_, ?_⟩ <;>
    rw [htotals, htotals']
  · exact hlength
  · exact hlines
  · exact hhits
  · exact hpart fun c => c.2.2.1
  · exact hpart fun c => c.2.2.2
  · exact (congr (congrArg coverageRatio hhits) hlines :)
  · show r.sessions.size = r'.sessions.size
    rw [size_of_numbersSessions hsessions, size_of_numbersSessions hsessions']

end two

/-- **The order of uploads does not matter for coverage.**  Uploads of what the parser gives never
fail, and in every order they make reports with the same coverage. -/
theorem addUploads_perm (uploads others : List (List TracedFile × Upload))
    (hperm : uploads.Perm others)
    (hparsed : ∀ u ∈ uploads, ∃ bytes, TracedFile.ofBytes? bytes = .ok u.1) :
    ∃ r r', addUploads {} uploads = .ok r ∧ addUploads {} others = .ok r' ∧
      SameCoverage r r' := by
  have hlines : ∀ u ∈ uploads, ∀ f ∈ u.1, ∀ l ∈ f.lines, l.line ≠ 0 := by
    intro u hu
    obtain ⟨bytes, hbytes⟩ := hparsed u hu
    exact TracedFile.line_ne_zero_of_ofBytes? hbytes
  have hnumbers : NumbersSessions 0 {} := by
    intro id
    constructor
    · intro h
      cases h
    · intro h
      cases h
  obtain ⟨r, hr, hmade, hsessions, hknown⟩ :=
    addUploads_of_madeBy MadeBy.empty hnumbers rfl hlines
  obtain ⟨r', hr', hmade', hsessions', hknown'⟩ :=
    addUploads_of_madeBy MadeBy.empty hnumbers rfl fun u hu => hlines u (hperm.mem_iff.2 hu)
  rw [hperm.length_eq] at hmade hsessions
  refine ⟨r, r', hr, hr', sameCoverage_of_perm hmade hmade' ?_ hsessions hsessions' hknown hknown'⟩
  rw [List.nil_append, List.nil_append]
  exact hperm.map Prod.fst

/-! Two uploads of one line, one that reached it and one that did not. -/

def reachedBytes : ByteArray := ⟨#[83, 70, 58, 97, 10, 68, 65, 58, 49, 44, 49]⟩

def missedBytes : ByteArray := ⟨#[83, 70, 58, 97, 10, 68, 65, 58, 49, 44, 48]⟩

def reachedUpload : List TracedFile × Upload :=
  ([{ path := "a", lines := [⟨1, 1⟩] }], { flags := ["unit"] })

def missedUpload : List TracedFile × Upload :=
  ([{ path := "a", lines := [⟨1, 0⟩] }], { flags := ["e2e"] })

theorem addUploads_perm_reached_missed :
    [reachedUpload, missedUpload].Perm [missedUpload, reachedUpload] ∧
    (∀ u ∈ [reachedUpload, missedUpload], ∃ bytes, TracedFile.ofBytes? bytes = .ok u.1) ∧
    ∃ r r', addUploads {} [reachedUpload, missedUpload] = .ok r ∧
      addUploads {} [missedUpload, reachedUpload] = .ok r' ∧ SameCoverage r r' := by
  have hperm : [reachedUpload, missedUpload].Perm [missedUpload, reachedUpload] := .swap _ _ _
  have hparsed : ∀ u ∈ [reachedUpload, missedUpload],
      ∃ bytes, TracedFile.ofBytes? bytes = .ok u.1 := by
    intro u hu
    rcases List.mem_cons.1 hu with rfl | hu
    · exact ⟨reachedBytes, by rfl⟩
    · rw [List.mem_singleton.1 hu]
      exact ⟨missedBytes, by rfl⟩
  exact ⟨hperm, hparsed, addUploads_perm _ _ hperm hparsed⟩

end Report

end CoverageLedger
