import CoverageLedger.Proofs.Tracefile.OnePass
import CoverageLedger.Proofs.Upload.Contribution

/-!
# What becomes of a traced file

`TracedFile.lineAt` is the line that a traced file makes of a number: a branch line of all arms, or
else a plain line of the most of its hits, or else a method line of the first function that starts
there.  The three passes of `TracedFile.source` come to it (`source_lines`), although a line may be
named many times within a pass and once more by each of the others.

So a file that was read from a tracefile is turned into lines without loss, and every report takes
it (`traced_files_convert_exactly`).
-/

namespace CoverageLedger

/-! ## 1. The most of some hits -/

namespace TracedFile

open SourceFile (joinLine)

variable {f : TracedFile} {file g : SourceFile} {id n : Nat} {l : Line}

theorem merge_plainLine (id j k : Nat) :
    (plainLine id j).merge (plainLine id k) true = plainLine id (max j k) := by
  have hsession : (LineSession.mk id (.ofCount j) none none none).merge
      (.mk id (.ofCount k) none none none) = .mk id (.ofCount (max j k)) none none none := by
    show LineSession.mk id ((Reading.ofCount j).merge (.ofCount k) none) none none none = _
    rw [Reading.merge_ofCount_max]
  have hsessions : LineSession.mergeLists (plainLine id j).sessions (plainLine id k).sessions =
      (plainLine id (max j k)).sessions := by
    show LineSession.mergeInto _ [_] = _
    rw [LineSession.mergeInto, if_pos rfl]
    exact congrArg (fun s => [s]) hsession
  rw [Line.merge]
  simp only [hsessions]
  rfl

/-- Counts of one line are joined into the greatest. -/
theorem foldl_plainLine (j : Nat) (hits : List Nat) :
    hits.foldl (fun own k => some (joinLine true own (plainLine id k))) (some (plainLine id j)) =
      some (plainLine id (hits.foldl max j)) := by
  induction hits generalizing j with
  | nil => rfl
  | cons k rest ih =>
    rw [List.foldl_cons, List.foldl_cons, ← ih, joinLine, merge_plainLine]

/-! ## 2. The passes -/

/-- A pass that adds a line for each element joins those of one number in turn. -/
theorem get?_foldlM_add {α : Type} {number : α → Nat} {line : α → Line} {items : List α}
    (h : file.ignore = none)
    (hok : items.foldlM (fun file a => add file (number a) (line a)) file = .ok g) :
    g.ignore = none ∧ ∀ n, g.lines.get? n = (items.filter fun a => number a == n).foldl
      (fun own a => some (joinLine true own (line a))) (file.lines.get? n) := by
  induction items generalizing file with
  | nil =>
    obtain rfl := Except.ok.inj hok
    exact ⟨h, fun n => rfl⟩
  | cons a rest ih =>
    rw [List.foldlM_cons] at hok
    obtain ⟨next, hnext, hrest⟩ := Result.bind_eq_ok.1 hok
    obtain rfl : next = file.appendLine (number a) (line a) true := by
      have hadd := add_of_ne_zero (l := line a) (add_cases hnext).1 h
      exact Except.ok.inj (hnext.symm.trans hadd)
    have hignored : (file.appendLine (number a) (line a) true).ignore = none := h
    obtain ⟨hignore, hlines⟩ := ih hignored hrest
    refine ⟨hignore, fun n => ?_⟩
    rw [hlines n, SourceFile.get?_appendLine]
    by_cases hn : number a = n
    · rw [List.filter_cons_of_pos (by simp [hn]), List.foldl_cons, if_pos hn.symm, hn]
    · rw [List.filter_cons_of_neg (by simp [hn]), if_neg (Ne.symm hn)]

/-- The pass over the functions adds a line where the first of them starts, unless one is there. -/
theorem get?_foldlM_functions {functions : List FunctionHits} (h : file.ignore = none)
    (hok : functions.foldlM (fun file function =>
        match function.first with
        | none | some 0 => return file
        | some first =>
          if (file.line? first).isSome then return file
          else add file first (methodLine id function.hits)) file = (.ok g : Result SourceFile)) :
    ∀ n, n ≠ 0 → g.lines.get? n = (file.lines.get? n).or
      ((functions.find? fun k => k.first == some n).map fun k => methodLine id k.hits) := by
  induction functions generalizing file with
  | nil =>
    obtain rfl := Except.ok.inj hok
    intro n _
    rw [List.find?_nil, Option.map_none, Option.or_none]
  | cons function rest ih =>
    rw [List.foldlM_cons] at hok
    obtain ⟨next, hnext, hrest⟩ := Result.bind_eq_ok.1 hok
    intro n hn
    match hfirst : function.first with
    | none =>
      rw [hfirst] at hnext
      obtain rfl := Except.ok.inj hnext
      rw [ih h hrest n hn, List.find?_cons_of_neg (by simp [hfirst])]
    | some 0 =>
      rw [hfirst] at hnext
      obtain rfl := Except.ok.inj hnext
      rw [ih h hrest n hn, List.find?_cons_of_neg (by simp [hfirst, Ne.symm hn])]
    | some (first + 1) =>
      rw [hfirst] at hnext
      by_cases hthere : (file.line? (first + 1)).isSome = true
      · -- the line was there, and nothing that follows replaces it
        obtain rfl : next = file := Except.ok.inj (hnext.symm.trans (if_pos hthere))
        rw [ih h hrest n hn]
        by_cases heq : first + 1 = n
        · obtain ⟨own, hown⟩ := Option.isSome_iff_exists.1 hthere
          rw [SourceFile.line?, heq] at hown
          rw [hown]
          rfl
        · rw [List.find?_cons_of_neg (by simp [hfirst, heq])]
      · have hadd : add file (first + 1) (methodLine id function.hits) = .ok _ :=
          add_of_ne_zero (Nat.succ_ne_zero first) h
        obtain rfl := Except.ok.inj ((hnext.symm.trans (if_neg hthere)).trans hadd)
        have hignored : (file.appendLine (first + 1) (methodLine id function.hits) true).ignore =
            none := h
        rw [ih hignored hrest n hn, SourceFile.get?_appendLine]
        by_cases heq : first + 1 = n
        · have hfree : file.lines.get? (first + 1) = none := Option.not_isSome_iff_eq_none.1 hthere
          rw [List.find?_cons_of_pos (by simp [hfirst, heq]), if_pos heq.symm, ← heq, hfree]
          rfl
        · rw [List.find?_cons_of_neg (by simp [hfirst, heq]), if_neg (Ne.symm heq)]

/-! ## 3. The line of a number -/

/-- The arms of a line, in the order of their records. -/
def armsAt (f : TracedFile) (n : Nat) : List ArmHits := f.arms.filter fun a => a.line == n

/-- The hits of a line, one count for each record. -/
def hitsAt (f : TracedFile) (n : Nat) : List Nat :=
  (f.lines.filter fun l => l.line == n).map (·.hits)

/-- The first of the functions that start in a line. -/
def functionAt? (f : TracedFile) (n : Nat) : Option FunctionHits :=
  f.functions.find? fun g => g.first == some n

/-- The line that a traced file makes of a number: of its arms, or else of the most of its hits, or
else of the first function that starts there. -/
def lineAt (f : TracedFile) (id n : Nat) : Option Line :=
  if f.armsAt n = [] then
    ((f.hitsAt n).max?.map (plainLine id)).or
      ((f.functionAt? n).map fun g => methodLine id g.hits)
  else some (branchLine id (f.armsAt n))

theorem get?_armsByLine (f : TracedFile) (n : Nat) :
    f.armsByLine.get? n = if f.armsAt n = [] then none else some (f.armsAt n) := by
  have hvalues : Table.valuesAt n (f.arms.map fun a => (a.line, a)) = f.armsAt n := by
    rw [Table.valuesAt, List.filter_map, List.map_map]
    exact List.map_id _
  rw [armsByLine, Table.get?_group, hvalues]
  simp only [List.isEmpty_iff]

/-- The first pass: the most of the hits of each line without arms. -/
theorem get?_of_lines
    (hok : (f.lines.filter fun l => !f.armsByLine.contains l.line).foldlM
      (fun file l => add file l.line (plainLine id l.hits)) { name := f.reportPath } = .ok g)
    (n : Nat) :
    g.lines.get? n = if f.armsAt n = [] then (f.hitsAt n).max?.map (plainLine id) else none := by
  rw [(get?_foldlM_add rfl hok).2 n, List.filter_filter]
  have hcontains : f.armsByLine.contains n = !decide (f.armsAt n = []) := by
    rw [Table.contains, get?_armsByLine]
    split
    · rename_i hnone
      rw [decide_eq_true hnone]
      rfl
    · rename_i hsome
      rw [decide_eq_false hsome]
      rfl
  by_cases harms : f.armsAt n = []
  · have hitems : (f.lines.filter fun l => l.line == n && !f.armsByLine.contains l.line) =
        f.lines.filter fun l => l.line == n := by
      refine List.filter_congr fun l _ => ?_
      by_cases hl : l.line = n
      · rw [hl, hcontains, decide_eq_true harms]
        simp
      · rw [beq_false_of_ne hl, Bool.false_and]
    rw [if_pos harms, hitems, hitsAt]
    -- the line is free at first, so that its first count is put there as it is
    cases f.lines.filter fun l => l.line == n with
    | nil => rfl
    | cons first rest =>
      rw [List.map_cons, List.max?_cons', Option.map_some, ← foldl_plainLine, List.foldl_map]
      rfl
  · have hitems : (f.lines.filter fun l => l.line == n && !f.armsByLine.contains l.line) = [] := by
      rw [List.filter_eq_nil_iff]
      intro l _ hl
      obtain ⟨hline, hfree⟩ := Bool.and_eq_true_iff.1 hl
      rw [beq_iff_eq.1 hline, hcontains, decide_eq_false harms] at hfree
      cases hfree
    rw [if_neg harms, hitems]
    rfl

/-- The three passes make of every line what the file says of it. -/
theorem source_lines (hg : f.source id = .ok g) (hn : n ≠ 0) :
    g.lines.get? n = f.lineAt id n := by
  unfold source at hg
  obtain ⟨withLines, hplain, hg⟩ := Result.bind_eq_ok.1 hg
  obtain ⟨withBranches, hbranches, hmethods⟩ := Result.bind_eq_ok.1 hg
  have hfirst := get?_of_lines hplain n
  have hignore := (get?_foldlM_add rfl hplain).1
  obtain ⟨hignore', hsecond⟩ := get?_foldlM_add hignore hbranches
  have hbranch : (f.armsByLine.entries.filter fun e => e.1 ≠ 0).filter (fun e => e.1 == n) =
      (f.armsByLine.get? n).toList.map fun arms => (n, arms) := by
    rw [← Table.filter_entries_key, List.filter_filter]
    refine List.filter_congr fun e _ => ?_
    by_cases he : e.1 = n
    · simp [he, hn]
    · simp [he]
  rw [get?_foldlM_functions hignore' hmethods n hn, hsecond n, hbranch, hfirst, get?_armsByLine,
    lineAt, functionAt?]
  by_cases harms : f.armsAt n = []
  · rw [if_pos harms, if_pos harms, if_pos harms]
    rfl
  · rw [if_neg harms, if_neg harms, if_neg harms]
    rfl

/-! ## 4. Every file converts -/

/-- What a traced file says of a line is all that the line says, and one session says it. -/
structure Exact (f : TracedFile) (id n : Nat) (l : Line) : Prop where
  session : ∃ s, l.sessions = [s] ∧ s.id = id ∧ s.reading = l.reading
  /-- With arms a line counts those that were taken, and lists those that were not in order. -/
  arms : f.armsAt n ≠ [] → l.kind = some .branch ∧
    l.reading = .ratio ((f.armsAt n).countP fun a => 0 < a.hits) (f.armsAt n).length ∧
    ∃ missing, l.sessions.map (·.missing) = [some missing] ∧ missing.Pairwise Precedes ∧
      missing = ((f.armsAt n).filter fun a => a.hits = 0).map fun a => .index a.arm
  /-- Without arms a line has the best of its counts. -/
  hits : f.armsAt n = [] → f.hitsAt n ≠ [] → l.kind = none ∧
    l.sessions.map (·.missing) = [none] ∧
    ∃ best ∈ f.hitsAt n, (∀ k ∈ f.hitsAt n, k ≤ best) ∧
      l.reading = if best = 0 then .miss else .hit (.ofNat best)
  /-- Without both a line has the count of the first function that starts there. -/
  method : f.armsAt n = [] → f.hitsAt n = [] → l.kind = some .method ∧
    l.sessions.map (·.missing) = [none] ∧
    ∃ first, f.functionAt? n = some first ∧
      l.reading = if first.hits = 0 then .miss else .hit (.ofNat first.hits)
  bare : l.Bare

theorem reading_of_count (hits : Nat) :
    Reading.ofCount hits = if hits = 0 then .miss else .hit (.ofNat hits) := by
  split
  · rename_i hzero
    rw [hzero, Reading.ofCount_zero]
  · rename_i hne
    exact Reading.ofCount_of_ne_zero hne

/-- The line of a number is exact when arms are numbered in order. -/
theorem exact_of_lineAt (hnumbers : f.NumbersArms) (h : f.lineAt id n = some l) :
    f.Exact id n l := by
  rw [lineAt] at h
  by_cases harms : f.armsAt n = []
  · rw [if_pos harms] at h
    rcases Option.or_eq_some_iff.1 h with hhits | ⟨hnone, hmethod⟩
    · obtain ⟨best, hbest, rfl⟩ := Option.map_eq_some_iff.1 hhits
      obtain ⟨hin, hmost⟩ := List.max?_eq_some_iff.1 hbest
      have hbare : (plainLine id best).Bare := bare_ofSession (s := ⟨id, _, _, _, _⟩) rfl none
      refine ⟨⟨_, rfl, rfl, rfl⟩, fun hne => absurd harms hne, fun _ _ => ?_, fun _ hnil => ?_,
        hbare⟩
      · exact ⟨rfl, rfl, best, hin, fun k hk => hmost k hk, reading_of_count best⟩
      · rw [hnil] at hin
        exact absurd hin List.not_mem_nil
    · obtain ⟨first, hfirst, rfl⟩ := Option.map_eq_some_iff.1 hmethod
      have hnil : f.hitsAt n = [] := List.max?_eq_none_iff.1 (Option.map_eq_none_iff.1 hnone)
      refine ⟨⟨_, rfl, rfl, rfl⟩, fun hne => absurd harms hne, fun _ hne => absurd hnil hne,
        fun _ _ => ⟨rfl, rfl, first, hfirst, reading_of_count first.hits⟩,
        bare_ofSession rfl (some .method)⟩
  · rw [if_neg harms] at h
    obtain rfl := Option.some.inj h
    refine ⟨⟨_, rfl, rfl, rfl⟩, fun _ => ⟨rfl, rfl, _, rfl, ?_, rfl⟩, fun hnil => absurd hnil harms,
      fun hnil => absurd hnil harms, bare_ofSession rfl (some .branch)⟩
    have hget : f.armsByLine.get? n = some (f.armsAt n) := by rw [get?_armsByLine, if_neg harms]
    have htold := told_branchSession (hnumbers n _ hget)
    exact (htold.below rfl).ascending

/-- **Every file of a tracefile converts without loss, and every report takes the tracefile.**  Under
any session a file has a line where an arm, hits or the start of a function name one above zero, and
each says what the file says of it: the arms, or else the best count, or else that of the first
function there.  So an upload of what was read from a tracefile never fails. -/
theorem traced_files_convert_exactly {bytes : ByteArray} {files : List TracedFile}
    (hparsed : ofBytes? bytes = .ok files) :
    (∀ f ∈ files, ∀ id, ∃ g, f.source id = .ok g ∧ g.name = f.reportPath ∧
      (∀ n, (g.line? n).isSome = true ↔ n ≠ 0 ∧ n ∈ f.numbers) ∧
      ∀ n l, g.line? n = some l → f.Exact id n l) ∧
    ∀ (r : Report) (upload : Upload), ∃ summary r', r.addUpload files upload = .ok (summary, r') := by
  have hlines := line_ne_zero_of_ofBytes? hparsed
  refine ⟨fun f hf id => ?_, fun r upload => ?_⟩
  · obtain ⟨g, hg, hname, hreads⟩ := source_reads f (hlines f hf) id
    -- no pass stores anything under zero
    have hzero : g.lines.get? 0 = none := by
      have hat := hreads.line 0
      rw [reads, if_pos rfl] at hat
      exact hat
    refine ⟨g, hg, hname, fun n => ?_, fun n l hl => ?_⟩
    · by_cases hn : n = 0
      · rw [SourceFile.line?, hn, hzero]
        exact iff_of_false Bool.false_ne_true fun h => h.1 rfl
      · have hnone := (get?_eq_none_of_reads hreads n).trans (reads_eq_none hn)
        rw [SourceFile.line?, ← Option.ne_none_iff_isSome, and_iff_right hn]
        exact (not_congr hnone).trans not_not
    · have hn : n ≠ 0 := by
        rintro rfl
        rw [SourceFile.line?, hzero] at hl
        cases hl
      rw [SourceFile.line?, source_lines hg hn] at hl
      exact exact_of_lineAt (numbersArms_of_ofBytes? hparsed f hf) hl
  · obtain ⟨r', hadded⟩ := Report.exists_addTraced hlines r.nextSession
      (r.addSession (Report.sessionOf upload)).2
    exact ⟨_, _, Report.addUpload_of_added hadded⟩

def mixedText : String :=
  "SF:./a\nFN:2,f\nFNDA:3,f\nFN:2,g\nFNDA:7,g\nFN:3,h\nFNDA:4,h\nDA:1,2\nDA:1,6\nDA:3,0\n" ++
    "DA:4,9\nBRDA:4,0,0,1\nBRDA:4,0,1,-\nBRDA:0,0,0,1\n"

def mixedFile : TracedFile :=
  { path := "./a"
    lines := [⟨1, 2⟩, ⟨1, 6⟩, ⟨3, 0⟩, ⟨4, 9⟩]
    arms := [⟨4, 0, 1⟩, ⟨4, 1, 0⟩, ⟨0, 0, 1⟩]
    functions := [⟨"f", some 2, none, 3⟩, ⟨"g", some 2, none, 7⟩, ⟨"h", some 3, none, 4⟩] }

/-- A line with two counts, one where two functions start, one with a count where a function starts
too, one with arms and a count, and an arm of line zero. -/
theorem traced_files_convert_exactly_mixed :
    ofBytes? mixedText.toUTF8 = .ok [mixedFile] ∧
    ∃ g, mixedFile.source 5 = .ok g ∧ g.name = "a" ∧
      (∀ n, (g.line? n).isSome = true ↔ n = 1 ∨ n = 2 ∨ n = 3 ∨ n = 4) ∧
      (∀ l, g.line? 1 = some l → l.kind = none ∧ l.reading = .hit (.ofNat 6)) ∧
      (∀ l, g.line? 2 = some l → l.kind = some .method ∧ l.reading = .hit (.ofNat 3)) ∧
      (∀ l, g.line? 3 = some l → l.kind = none ∧ l.reading = .miss) ∧
      (∀ l, g.line? 4 = some l → l.kind = some .branch ∧ l.reading = .ratio 1 2 ∧
        l.sessions.map (·.missing) = [some [.index 1]]) := by
  have hparsed : ofBytes? mixedText.toUTF8 = .ok [mixedFile] := by
    have hread : ofText mixedText = [mixedFile] := by decide +kernel
    rw [ofBytes?_toUTF8, hread]
  obtain ⟨g, hg, hname, hstored, hexact⟩ :=
    (traced_files_convert_exactly hparsed).1 mixedFile List.mem_cons_self 5
  refine ⟨hparsed, g, hg, hname, fun n => ?_, fun l hl => ?_, fun l hl => ?_, fun l hl => ?_,
    fun l hl => ?_⟩
  · have hnumbers : mixedFile.numbers = [1, 1, 3, 4, 4, 4, 0, 2, 2, 3] := rfl
    rw [hstored, hnumbers]
    simp only [List.mem_cons, List.not_mem_nil, or_false]
    omega
  · obtain ⟨hkind, -, best, hin, hmost, hreading⟩ := (hexact 1 l hl).hits rfl (by decide)
    have hbest : best ∈ [2, 6] := hin
    have hsix : 6 ≤ best := hmost 6 (by decide)
    obtain rfl : best = 6 := by
      simp only [List.mem_cons, List.not_mem_nil, or_false] at hbest
      omega
    exact ⟨hkind, hreading⟩
  · obtain ⟨hkind, -, first, hfirst, hreading⟩ := (hexact 2 l hl).method rfl rfl
    obtain rfl := Option.some.inj hfirst
    exact ⟨hkind, hreading⟩
  · obtain ⟨hkind, -, best, hin, -, hreading⟩ := (hexact 3 l hl).hits rfl (by decide)
    obtain rfl : best = 0 := List.mem_singleton.1 hin
    exact ⟨hkind, hreading⟩
  · obtain ⟨hkind, hreading, missing, hmissing, -, huntaken⟩ := (hexact 4 l hl).arms (by decide)
    rw [huntaken] at hmissing
    exact ⟨hkind, hreading, hmissing⟩

end TracedFile

end CoverageLedger
