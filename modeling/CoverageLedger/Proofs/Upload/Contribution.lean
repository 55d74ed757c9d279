import CoverageLedger.Proofs.View.Lent

/-!
# What the totals of an upload count

Each record of a tracefile that says something of a line names its file once more, and the totals of
an upload are summed over these names as they come (`addUpload_counts`).  So they are what the new
session has of the report when no file is named twice; the session's lines in a file count once for
every record of it (`repeated_record_counts_twice`).
-/

namespace CoverageLedger

open LineSession (join)

/-! ## 1. Records that say something -/

namespace TracedFile

variable {f : TracedFile} {g : SourceFile} {n id : Nat}

/-- The numbers of the lines that a traced file has hits, arms or the start of a function for. -/
def numbers (f : TracedFile) : List Nat :=
  f.lines.map (·.line) ++ f.arms.map (·.line) ++ f.functions.filterMap (·.first)

/-- Whether a traced file says anything of a line.  There is no line zero. -/
def tells (f : TracedFile) : Bool := f.numbers.any (· != 0)

theorem armsByLine_eq_none : f.armsByLine.get? n = none ↔ ∀ a ∈ f.arms, a.line ≠ n := by
  rw [armsByLine, Table.get?_group, Table.valuesAt, List.filter_map, List.map_map]
  split
  · rename_i hempty
    refine iff_of_true rfl fun a ha heq => ?_
    rw [List.isEmpty_iff, List.map_eq_nil_iff, List.filter_eq_nil_iff] at hempty
    exact hempty a ha (beq_iff_eq.2 heq)
  · rename_i hempty
    refine iff_of_false (Option.some_ne_none _) fun hall => hempty ?_
    rw [List.isEmpty_iff, List.map_eq_nil_iff, List.filter_eq_nil_iff]
    exact fun a ha heq => hall a ha (beq_iff_eq.1 heq)

theorem plainReads_eq_none : f.plainReads n = none ↔
    ∀ l ∈ f.lines, l.line = n → f.armsByLine.contains n = true := by
  have hsome (l : List LineHits) (own : LineSession) :
      l.foldl (fun own hits => join own (plainSession hits.hits)) (some own) ≠ none := by
    induction l generalizing own with
    | nil => exact fun h => nomatch h
    | cons hits rest ih => exact ih _
  have hnone (l : List LineHits) :
      l.foldl (fun own hits => join own (plainSession hits.hits)) none = none ↔ l = [] := by
    cases l with
    | nil => exact iff_of_true rfl rfl
    | cons hits rest => exact iff_of_false (hsome rest _) fun h => nomatch h
  rw [plainReads, hnone, List.filter_filter, List.filter_eq_nil_iff]
  refine forall₂_congr fun l _ => ?_
  by_cases hn : l.line = n
  · simp [hn]
  · simp [hn]

theorem methodReads_eq_none {functions : List FunctionHits} (hn : n ≠ 0) :
    methodReads functions n = none ↔ n ∉ functions.filterMap (·.first) := by
  rw [methodReads, if_neg hn, Option.map_eq_none_iff, List.find?_eq_none]
  simp

theorem reads_eq_none (hn : n ≠ 0) : f.reads n = none ↔ n ∉ f.numbers := by
  rw [reads, if_neg hn, Option.or_eq_none_iff, Option.or_eq_none_iff, Option.map_eq_none_iff,
    armsByLine_eq_none, plainReads_eq_none, methodReads_eq_none hn, numbers, List.mem_append,
    List.mem_append, not_or, not_or, List.mem_map, List.mem_map, and_assoc, and_left_comm]
  constructor
  · rintro ⟨hlines, harms, hfunctions⟩
    have hout : f.armsByLine.contains n = false := by
      rw [Table.contains, armsByLine_eq_none.2 harms]
      rfl
    refine ⟨?_, ?_, hfunctions⟩
    · rintro ⟨l, hl, heq⟩
      exact absurd (hlines l hl heq) (Bool.eq_false_iff.1 hout)
    · rintro ⟨a, ha, heq⟩
      exact harms a ha heq
  · rintro ⟨hlines, harms, hfunctions⟩
    exact ⟨fun l hl heq => absurd ⟨l, hl, heq⟩ hlines, fun a ha heq => harms ⟨a, ha, heq⟩,
      hfunctions⟩

/-- A traced file tells nothing when it says nothing of any line. -/
theorem forall_reads_eq_none : (∀ n, f.reads n = none) ↔ f.tells = false := by
  rw [tells, List.any_eq_false]
  constructor
  · intro h n hn hne
    exact (reads_eq_none (bne_iff_ne.1 hne)).1 (h n) hn
  · intro h n
    by_cases hn : n = 0
    · rw [reads, if_pos hn]
    · exact (reads_eq_none hn).2 fun hin => h n hin (bne_iff_ne.2 hn)

/-- A file has the lines that something is said of. -/
theorem get?_eq_none_of_reads {known : Nat → Option LineSession} (h : g.Reads id known) (n : Nat) :
    g.lines.get? n = none ↔ known n = none := by
  have hat := h.line n
  cases hread : known n with
  | none =>
    rw [hread] at hat
    exact iff_of_true hat rfl
  | some s =>
    rw [hread] at hat
    obtain ⟨l, hl, -⟩ := hat
    rw [hl]
    exact iff_of_false (fun h => nomatch h) fun h => nomatch h

/-- The source of a traced file has a line when the file tells anything. -/
theorem isEmpty_source (hlines : ∀ l ∈ f.lines, l.line ≠ 0) (hg : f.source id = .ok g) :
    g.isEmpty = !f.tells := by
  obtain ⟨g', hg', -, hreads⟩ := source_reads f hlines id
  obtain rfl : g = g' := Except.ok.inj (hg.symm.trans hg')
  have hempty : g.isEmpty = true ↔ f.tells = false := by
    rw [SourceFile.isEmpty, Table.isEmpty_iff, ← forall_reads_eq_none]
    exact forall_congr' (get?_eq_none_of_reads hreads)
  rw [Bool.eq_iff_iff, hempty, Bool.not_eq_true']

end TracedFile

/-! ## 2. What is counted -/

namespace Report

variable {r r' : Report} {files : List TracedFile} {names : List String} {id : Nat} {q : String}

/-- The names of the files that records tell of, one for each record. -/
def toldNames (files : List TracedFile) : List String :=
  (files.filter TracedFile.tells).map TracedFile.reportPath

/-- The records of a tracefile can all be added, and the names that come back are those that they
tell of. -/
theorem exists_addTraced (hlines : ∀ f ∈ files, ∀ l ∈ f.lines, l.line ≠ 0) (id : Nat)
    (r : Report) : ∃ r', addTraced id r files = .ok (toldNames files, r') := by
  induction files generalizing r with
  | nil => exact ⟨r, rfl⟩
  | cons f rest ih =>
    obtain ⟨g, hg, hname, -⟩ := f.source_reads (hlines f List.mem_cons_self) id
    obtain ⟨r', hrest⟩ := ih (fun k hk => hlines k (List.mem_cons_of_mem f hk)) (r.append g).2
    have hempty := TracedFile.isEmpty_source (hlines f List.mem_cons_self) hg
    refine ⟨r', ?_⟩
    rw [addTraced]
    simp only [hg, hrest, fst_append, hempty, hname, Bool.not_not, bind, Except.bind, pure,
      Except.pure, toldNames, List.filter_cons]
    cases f.tells <;> rfl

/-- The readings of a session in a file. -/
def readingsIn (r : Report) (id : Nat) (q : String) : List Line :=
  (r.file? q).elim [] fun f => f.readingsOf id

theorem shareIn_eq_readingsIn (r : Report) (id : Nat) (q : String) :
    r.shareIn id q =
      if (r.readingsIn id q).isEmpty then none else some (.ofLines (r.readingsIn id q)) := by
  rw [shareIn, readingsIn]
  cases r.file? q with
  | none => rfl
  | some f => exact f.get?_sessionTotals_eq id

/-- The totals of the readings of a session over some files, those of a file counted as often as it
is named. -/
def countOver (r : Report) (id : Nat) (names : List String) : Totals :=
  let read := names.filter fun q => !(r.readingsIn id q).isEmpty
  { Totals.sum (read.map fun q => .ofLines (r.readingsIn id q)) with sessions := 1 }

theorem countOver_eq_sum (r : Report) (id : Nat) (names : List String) :
    r.countOver id names = { Totals.sum (names.filterMap (r.shareIn id)) with sessions := 1 } := by
  have hitems : names.filterMap (r.shareIn id) =
      (names.filter fun q => !(r.readingsIn id q).isEmpty).map
        fun q => .ofLines (r.readingsIn id q) := by
    rw [← List.filterMap_eq_map, List.filterMap_filter]
    refine List.filterMap_congr fun q _ => ?_
    rw [shareIn_eq_readingsIn]
    cases (r.readingsIn id q).isEmpty <;> rfl
  rw [hitems]
  rfl

theorem addUpload_of_added {upload : Upload}
    (h : addTraced r.nextSession (r.addSession (sessionOf upload)).2 files = .ok (names, r')) :
    r.addUpload files upload =
      .ok ({ session := r.nextSession
             files := names.length
             totals := r'.sessionTotalsIn r.nextSession names },
        { r'.changed with
          sessions := r'.sessions.modify r.nextSession fun s =>
            { s with totals := some (r'.sessionTotalsIn r.nextSession names) } }) := by
  show (addTraced r.nextSession (r.addSession (sessionOf upload)).2 files >>= fun _ => _) = _
  rw [h]
  rfl

theorem Consistent.addTraced (h : r.Consistent)
    (hok : Report.addTraced id r files = .ok (names, r')) : r'.Consistent := by
  have hrows : Each (fun _ _ => True) r := ⟨h, fun _ _ _ => trivial⟩
  exact (hrows.addTraced (fun _ _ _ _ => ⟨trivial, fun _ _ => trivial⟩) hok).consistent

/-- **What the totals of an upload count.**  Every parsed tracefile can be added, and its session
keeps the totals that are given back: those of the session's own readings in each file that a record
tells of, once for each of these records.  When no two records tell of one file, and the session is
in no file that none tells of, that is each file with a reading of the session once. -/
theorem addUpload_counts (h : r.Consistent) (hparsed : ∃ bytes, TracedFile.ofBytes? bytes = .ok files)
    (upload : Upload) :
    ∃ summary r', r.addUpload files upload = .ok (summary, r') ∧
      (r'.sessions.get? summary.session).map (·.totals) = some (some summary.totals) ∧
      summary.totals = r'.countOver summary.session (toldNames files) ∧
      ((toldNames files).Nodup →
        (∀ q, q ∉ toldNames files → r.readingsIn summary.session q = []) →
        summary.totals = r'.countOver summary.session r'.names) := by
  obtain ⟨bytes, hbytes⟩ := hparsed
  obtain ⟨last, hadded⟩ := exists_addTraced (TracedFile.line_ne_zero_of_ofBytes? hbytes)
    r.nextSession (r.addSession (sessionOf upload)).2
  have hstart : (r.addSession (sessionOf upload)).2.Consistent := h.congr (fun _ => rfl) fun _ => rfl
  obtain ⟨-, hcounted, hothers⟩ := row?_addTraced hstart hadded
  refine ⟨_, _, addUpload_of_added hadded, ?_, ?_, fun hnodup hfree => ?_⟩
  · have hsessions : last.sessions = r.sessions.insert r.nextSession (sessionOf upload) :=
      sessions_addTraced hadded
    show ((last.sessions.modify r.nextSession _).get? r.nextSession).map _ = _
    rw [Table.get?_modify, if_pos rfl, hsessions, Table.get?_insert_self]
    rfl
  · exact (sessionTotalsIn_of_counted hcounted).trans (last.countOver_eq_sum _ _).symm
  · -- a file that no record tells of is as it was before the upload, without the session
    refine (sessionTotalsIn_eq_shareOf (hstart.addTraced hadded) hnodup hcounted
      fun q hq => ?_).trans (last.countOver_eq_sum _ _).symm
    have hbefore : (r.addSession (sessionOf upload)).2.shareIn r.nextSession q = none := by
      rw [shareIn_eq_readingsIn]
      exact if_pos (List.isEmpty_iff.2 (hfree q hq))
    rw [shareIn_eq_row, hothers q hq, ← shareIn_eq_row]
    exact hbefore

/-! Records of two files, one of them under a path from here, and two records of one file. -/

def pairBytes : ByteArray :=
  ⟨#[83, 70, 58, 97, 10, 68, 65, 58, 49, 44, 49, 10,
    83, 70, 58, 46, 47, 98, 10, 68, 65, 58, 50, 44, 49]⟩

def pairFiles : List TracedFile :=
  [{ path := "a", lines := [⟨1, 1⟩] }, { path := "./b", lines := [⟨2, 1⟩] }]

/-- Two files are uploaded to a report that has one of them. -/
theorem addUpload_counts_pair :
    (∃ bytes, TracedFile.ofBytes? bytes = .ok pairFiles) ∧
    ∃ r, addUploads {} [missedUpload] = .ok r ∧ r.Consistent ∧ (toldNames pairFiles).Nodup ∧
      ∃ summary r', r.addUpload pairFiles {} = .ok (summary, r') ∧
        summary.totals = r'.countOver summary.session r'.names := by
  have hparsed : ∃ bytes, TracedFile.ofBytes? bytes = .ok pairFiles := ⟨pairBytes, by rfl⟩
  have hnodup : (toldNames pairFiles).Nodup := by decide
  obtain ⟨r, hr⟩ : ∃ r, addUploads {} [missedUpload] = .ok r := ⟨_, rfl⟩
  have htraces : r.FromTraces :=
    FromTraces.addUploads ⟨.empty, fun name f hf => nomatch hf⟩ hr
  have hnames : r.names = ["a"] := by
    cases hr
    rfl
  obtain ⟨summary, r', hr', -, -, honce⟩ := addUpload_counts htraces.consistent hparsed {}
  refine ⟨hparsed, r, hr, htraces.consistent, hnodup, summary, r', hr', honce hnodup fun q hq => ?_⟩
  have hout : r.file? q = none := by
    refine Option.eq_none_iff_forall_ne_some.2 fun f hf => hq ?_
    have hin := htraces.consistent.mem_names_iff.2 ⟨f, hf⟩
    rw [hnames, List.mem_singleton] at hin
    rw [hin]
    decide
  rw [readingsIn, hout]
  rfl

def repeatedBytes : ByteArray :=
  ⟨#[83, 70, 58, 97, 10, 68, 65, 58, 49, 44, 49, 10,
    83, 70, 58, 97, 10, 68, 65, 58, 50, 44, 49]⟩

def repeatedFiles : List TracedFile :=
  [{ path := "a", lines := [⟨1, 1⟩] }, { path := "a", lines := [⟨2, 1⟩] }]

/-- Two records of one file, each with a line: the upload is said to have two files with four lines,
where the session has read two lines of one file. -/
theorem repeated_record_counts_twice :
    (∃ bytes, TracedFile.ofBytes? bytes = .ok repeatedFiles) ∧
    ∃ summary r', addUpload {} repeatedFiles {} = .ok (summary, r') ∧ r'.names = ["a"] ∧
      summary.totals.files = 2 ∧ (r'.countOver summary.session r'.names).files = 1 ∧
      summary.totals.lines = 4 ∧ (r'.countOver summary.session r'.names).lines = 2 :=
  ⟨⟨repeatedBytes, by rfl⟩, _, _, rfl, rfl, rfl, rfl, rfl, rfl⟩

end Report

end CoverageLedger
