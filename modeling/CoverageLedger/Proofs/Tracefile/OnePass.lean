import CoverageLedger.Proofs.Store.Saved
import CoverageLedger.Proofs.Text.Pieces
import CoverageLedger.Proofs.Upload.Told

/-!
# Tracefiles in one pass

A tracefile can be read record by record, without looking ahead (`TraceReader`).  The reader has
three things to remember: the file that is open, how many arms each of its lines has so far, and
where functions were said to be.  It forgets them at the start of a section as well as at its end,
and it hands over the open file at both and once more at the end of the text.

It gives what the sections of the records give (`readAll_eq`), so nothing that is remembered
passes from one section to the next: tracefiles that follow each other are read as if each were
alone (`tracefiles_read_apart`).
-/

namespace CoverageLedger

/-! ## 1. The reader -/

/-- What a reader of records remembers. -/
structure TraceReader where
  /-- The files that were handed over. -/
  done : List TracedFile := []
  file : Option TracedFile := none
  /-- How many arms each line of the open file has. -/
  armCounts : Table Nat Nat := ∅
  /-- Where functions were said to be. -/
  places : Table String (Nat × Option Nat) := ∅

namespace TraceReader

/-- Hand over the open file and forget what was said of it. -/
def flush (s : TraceReader) : TraceReader := { done := s.done ++ s.file.toList }

/-- Say something of the open file, if one is open. -/
def onFile (s : TraceReader) (change : TracedFile → TracedFile) : TraceReader :=
  { s with file := s.file.map change }

/-- The number of the next arm of a line. -/
def nextArm (s : TraceReader) (n : Nat) : Nat := (s.armCounts.get? n).getD 0

def read (s : TraceReader) : TraceRecord → TraceReader
  | .source path => { s.flush with file := some { path } }
  | .endOfSection => s.flush
  | .function name first last => { s with places := s.places.insert name (first, last) }
  | .functionHits name hits =>
    let place := s.places.get? name
    s.onFile fun f => { f with
      functions := f.functions ++ [⟨name, place.map Prod.fst, place.bind Prod.snd, hits⟩] }
  | .line n hits => s.onFile fun f => { f with lines := f.lines ++ [⟨n, hits⟩] }
  | .branch n hits =>
    -- without an open file the arm is not counted either
    if s.file.isNone then s
    else
      { s.onFile fun f => { f with arms := f.arms ++ [⟨n, s.nextArm n, hits⟩] } with
        armCounts := s.armCounts.insert n (s.nextArm n + 1) }

/-- The files that some records give. -/
def readAll (records : List TraceRecord) : List TracedFile := (records.foldl read {}).flush.done

end TraceReader

/-! ## 2. Sections record by record -/

namespace TraceRecord

variable {records : List TraceRecord} {n hits : Nat} {name : String} {first : Nat}
  {last : Option Nat}

/-- The lines that the branch records name, one for each arm. -/
def armLines (records : List TraceRecord) : List Nat :=
  records.filterMap fun
    | branch n _ => some n
    | _ => none

/-- Where the functions were last said to be. -/
def placesAfter (records : List TraceRecord) (places : Table String (Nat × Option Nat)) :
    Table String (Nat × Option Nat) :=
  records.foldl (fun places record =>
    match record with
    | function name first last => places.insert name (first, last)
    | _ => places) places

theorem armHits_append (earlier : List Nat) (records others : List TraceRecord) :
    armHits earlier (records ++ others) =
      armHits earlier records ++ armHits ((armLines records).reverse ++ earlier) others := by
  induction records generalizing earlier with
  | nil => rfl
  | cons record rest ih =>
    cases record with
    | branch n hits =>
      have hlines : (armLines (branch n hits :: rest)).reverse ++ earlier =
          (armLines rest).reverse ++ n :: earlier := by
        show (n :: armLines rest).reverse ++ earlier = _
        rw [List.reverse_cons, List.append_assoc, List.singleton_append]
      rw [hlines, List.cons_append, armHits, ih, armHits, List.cons_append]
    | _ => exact ih earlier

theorem calls_append (places : Table String (Nat × Option Nat))
    (records others : List TraceRecord) :
    calls places (records ++ others) =
      calls places records ++ calls (placesAfter records places) others := by
  induction records generalizing places with
  | nil => rfl
  | cons record rest ih =>
    cases record with
    | function name first last => exact ih (places.insert name (first, last))
    | functionHits name hits =>
      show _ :: calls places (rest ++ others) = _ :: (calls places rest ++ _)
      rw [ih]
      rfl
    | _ => exact ih places

end TraceRecord

namespace TracedFile

open TraceRecord

variable {path : String} {records : List TraceRecord} {n hits : Nat} {name : String}

theorem ofSection_function {first : Nat} {last : Option Nat} :
    ofSection path (records ++ [.function name first last]) = ofSection path records := by
  simp [ofSection, lineHits, armHits_append, calls_append, armHits, calls]

theorem ofSection_line : ofSection path (records ++ [.line n hits]) =
    { ofSection path records with lines := (ofSection path records).lines ++ [⟨n, hits⟩] } := by
  simp [ofSection, lineHits, armHits_append, calls_append, armHits, calls]

theorem ofSection_branch : ofSection path (records ++ [.branch n hits]) =
    { ofSection path records with
      arms := (ofSection path records).arms ++ [⟨n, (armLines records).count n, hits⟩] } := by
  simp [ofSection, lineHits, armHits_append, calls_append, armHits, calls]

theorem ofSection_functionHits : ofSection path (records ++ [.functionHits name hits]) =
    { ofSection path records with
      functions := (ofSection path records).functions ++
        [⟨name, ((placesAfter records ∅).get? name).map Prod.fst,
          ((placesAfter records ∅).get? name).bind Prod.snd, hits⟩] } := by
  simp [ofSection, lineHits, armHits_append, calls_append, armHits, calls]

end TracedFile

/-! ## 3. The reader follows the sections -/

namespace TraceRecord

/-- Whether a record starts or ends a section. -/
def isMark : TraceRecord → Bool
  | source _ | endOfSection => true
  | _ => false

theorem sectionsFrom_of_not_isMark {record : TraceRecord} (h : record.isMark = false)
    (opened : OpenSection) (rest : List TraceRecord) :
    sectionsFrom opened (record :: rest) =
      sectionsFrom (opened.map fun (path, records) => (path, record :: records)) rest := by
  cases record <;> first | rfl | cases h

end TraceRecord

namespace TraceReader

open TraceRecord TracedFile

variable {opened : OpenSection} {s : TraceReader} {record : TraceRecord}
  {records others : List TraceRecord} {path : String}

/-- Inside a section the reader has the file of the records so far, and what they say of its arms
and functions. -/
structure Within (path : String) (records : List TraceRecord) (s : TraceReader) : Prop where
  file : s.file = some (ofSection path records)
  arms : ∀ n, s.nextArm n = (armLines records).count n
  places : s.places = placesAfter records ∅

/-- The reader stands where the sections do.  Outside of all sections it has no file, and what else
it remembers does not matter. -/
def Follows : OpenSection → TraceReader → Prop
  | none, s => s.file = none
  | some (path, records), s => s.Within path records.reverse

theorem within_start (s : TraceReader) (path : String) : Within path [] (s.read (.source path)) where
  file := rfl
  arms := fun _ => rfl
  places := rfl

theorem done_flush (h : Follows opened s) :
    s.flush.done = s.done ++ (sectionsFrom.close opened).map fun found =>
      ofSection found.1 found.2 := by
  have hfile : s.file = opened.map fun found => ofSection found.1 found.2.reverse := by
    cases opened with
    | none => exact h
    | some found => exact h.file
  show s.done ++ s.file.toList = _
  rw [hfile, sectionsFrom.close]
  cases opened <;> rfl

theorem read_of_closed (h : s.file = none) (hr : record.isMark = false) :
    (s.read record).file = none ∧ (s.read record).done = s.done := by
  cases record with
  | source path => cases hr
  | endOfSection => cases hr
  | function name first last => exact ⟨h, rfl⟩
  | functionHits name hits =>
    refine ⟨?_, rfl⟩
    show s.file.map _ = none
    rw [h]
    rfl
  | line n hits =>
    refine ⟨?_, rfl⟩
    show s.file.map _ = none
    rw [h]
    rfl
  | branch n hits =>
    rw [read, if_pos (by rw [h]; rfl)]
    exact ⟨h, rfl⟩

theorem armLines_append (records others : List TraceRecord) :
    armLines (records ++ others) = armLines records ++ armLines others :=
  List.filterMap_append

/-- One more record in a section. -/
theorem Within.read (h : s.Within path records) (hr : record.isMark = false) :
    (s.read record).Within path (records ++ [record]) ∧ (s.read record).done = s.done := by
  obtain ⟨hfile, harms, hplaces⟩ := h
  have hplacesAfter : placesAfter (records ++ [record]) ∅ =
      placesAfter [record] (placesAfter records ∅) := List.foldl_append
  cases record with
  | source path => cases hr
  | endOfSection => cases hr
  | function name first last =>
    refine ⟨⟨?_, fun n => ?_, ?_⟩, rfl⟩
    · rw [ofSection_function]
      exact hfile
    · rw [armLines_append, List.count_append]
      exact harms n
    · show s.places.insert name (first, last) = _
      rw [hplacesAfter, hplaces]
      rfl
  | functionHits name hits =>
    refine ⟨⟨?_, fun n => ?_, ?_⟩, rfl⟩
    · show s.file.map _ = _
      rw [ofSection_functionHits, hfile, hplaces]
      rfl
    · rw [armLines_append, List.count_append]
      exact harms n
    · rw [hplacesAfter]
      exact hplaces
  | line n hits =>
    refine ⟨⟨?_, fun k => ?_, ?_⟩, rfl⟩
    · show s.file.map _ = _
      rw [ofSection_line, hfile]
      rfl
    · rw [armLines_append, List.count_append]
      exact harms k
    · rw [hplacesAfter]
      exact hplaces
  | branch n hits =>
    rw [TraceReader.read, if_neg (by rw [hfile]; exact Bool.false_ne_true)]
    refine ⟨⟨?_, fun k => ?_, ?_⟩, rfl⟩
    · -- the number that the arm gets is how many of its line came before
      show s.file.map _ = _
      rw [ofSection_branch, hfile, harms n]
      rfl
    · show ((s.armCounts.insert n (s.nextArm n + 1)).get? k).getD 0 = _
      rw [armLines_append, List.count_append, Table.get?_insert, ← harms k]
      by_cases hk : k = n
      · simp [hk, armLines]
      · simp [hk, armLines, nextArm, Ne.symm hk]
    · rw [hplacesAfter]
      exact hplaces

/-- **The reader gives the files of the sections**, whatever it has read before. -/
theorem foldl_read {s : TraceReader} (opened : OpenSection)
    (h : Follows opened s) (records : List TraceRecord) :
    (records.foldl read s).flush.done = s.done ++ (sectionsFrom opened records).map fun found =>
      ofSection found.1 found.2 := by
  induction records generalizing opened s with
  | nil => exact done_flush h
  | cons record rest ih =>
    rw [List.foldl_cons]
    cases hmark : record.isMark with
    | false =>
      rw [sectionsFrom_of_not_isMark hmark]
      cases opened with
      | none =>
        obtain ⟨hfile, hdone⟩ := read_of_closed h hmark
        rw [ih none hfile, hdone]
        rfl
      | some found =>
        obtain ⟨hwithin, hdone⟩ := Within.read h hmark
        rw [← List.reverse_cons] at hwithin
        rw [ih (some (found.1, record :: found.2)) hwithin, hdone]
        rfl
    | true =>
      -- a mark hands over the open file, and then nothing is remembered of it
      cases record with
      | source path =>
        rw [ih (some (path, [])) (within_start s path), sectionsFrom, List.map_append,
          ← List.append_assoc, ← done_flush h]
        rfl
      | endOfSection =>
        have hclosed : Follows none (s.read .endOfSection) := rfl
        rw [ih none hclosed, sectionsFrom, List.map_append,
          ← List.append_assoc, ← done_flush h]
        rfl
      | _ => cases hmark

theorem readAll_eq (records : List TraceRecord) :
    readAll records = (sectionsFrom none records).map fun found => ofSection found.1 found.2 :=
  foldl_read none (show Follows none {} from rfl) records

/-! ## 4. Records that follow each other -/

theorem flush_flush (s : TraceReader) : s.flush.flush = s.flush := by
  show TraceReader.mk (s.flush.done ++ []) none ∅ ∅ = s.flush
  rw [List.append_nil]
  rfl

/-- A reader that has just handed over its file goes on as if it began. -/
theorem foldl_read_flush (s : TraceReader) (records : List TraceRecord) :
    (records.foldl read s.flush).flush.done = s.flush.done ++ readAll records := by
  have hclosed : Follows none s.flush := rfl
  rw [foldl_read none hclosed, readAll_eq]

/-- Records after the end of a section are read apart. -/
theorem readAll_append_of_end (records others : List TraceRecord) :
    readAll (records ++ [.endOfSection] ++ others) =
      readAll (records ++ [.endOfSection]) ++ readAll others := by
  have hbefore : readAll (records ++ [.endOfSection]) = (records.foldl read {}).flush.done := by
    rw [readAll, List.foldl_append]
    show (records.foldl read {}).flush.flush.done = _
    rw [flush_flush]
  rw [hbefore, ← foldl_read_flush, readAll, List.foldl_append, List.foldl_append]
  rfl

/-- Records from the start of a section on are read apart. -/
theorem readAll_append_of_source (records others : List TraceRecord) (path : String) :
    readAll (records ++ .source path :: others) =
      readAll records ++ readAll (.source path :: others) := by
  have hstart (s : TraceReader) : s.read (.source path) = s.flush.read (.source path) := by
    show { s.flush with file := some { path } } = { s.flush.flush with file := some { path } }
    rw [flush_flush]
  rw [readAll, List.foldl_append, List.foldl_cons, hstart]
  exact foldl_read_flush _ (.source path :: others)

end TraceReader

/-! ## 5. Tracefiles that follow each other -/

namespace TracedFile

open TraceRecord

variable {x y : String}

/-- The rows of a text that are not blank. -/
def writtenRows (text : String) : List (List Char) :=
  (Text.splitAt '\n' text.toList).filter fun row => !(Text.trim row).isEmpty

def records (text : String) : List TraceRecord := (writtenRows text).filterMap ofRow?

/-- The last row of a text that is not blank ends a section. -/
def EndsSection (text : String) : Prop :=
  ∃ row, (writtenRows text).getLast? = some row ∧ Text.trim row = "end_of_record".toList

/-- The first row of a text that is not blank names a source file. -/
def StartsSection (text : String) : Prop :=
  ∃ row path, (writtenRows text).head? = some row ∧ Text.trim row = "SF:".toList ++ path

theorem ofRow?_of_blank {row : List Char} (h : (Text.trim row).isEmpty = true) :
    ofRow? row = none := by
  rw [ofRow?, List.isEmpty_iff.1 h]
  rfl

theorem ofRow?_of_end {row : List Char} (h : Text.trim row = "end_of_record".toList) :
    ofRow? row = some .endOfSection := by
  rw [ofRow?, h]
  rfl

theorem ofRow?_of_source {row path : List Char} (h : Text.trim row = "SF:".toList ++ path) :
    ofRow? row = some (.source (String.ofList path)) := by
  rw [ofRow?, h]
  rfl

theorem ofText_eq (text : String) : ofText text = TraceReader.readAll (records text) := by
  have hrows : records text = (Text.splitAt '\n' text.toList).filterMap ofRow? := by
    rw [records, writtenRows, List.filterMap_filter]
    refine List.filterMap_congr fun row _ => ?_
    cases hblank : (Text.trim row).isEmpty with
    | false => rfl
    | true => exact (ofRow?_of_blank hblank).symm
  rw [TraceReader.readAll_eq, hrows]
  rfl

/-- A text that is empty or ends with a line break has its rows before those of the next. -/
theorem writtenRows_append (h : x = "" ∨ x.toList.getLast? = some '\n') :
    writtenRows (x ++ y) = writtenRows x ++ writtenRows y := by
  rcases h with rfl | hbreak
  · rw [String.empty_append]
    rfl
  · obtain ⟨cs, hcs⟩ := List.getLast?_eq_some_iff.1 hbreak
    have hx : Text.splitAt '\n' x.toList = Text.splitAt '\n' cs ++ [[]] := by
      rw [hcs, Text.splitAt_append]
      rfl
    have hxy : Text.splitAt '\n' (x ++ y).toList =
        Text.splitAt '\n' cs ++ Text.splitAt '\n' y.toList := by
      rw [String.toList_append, hcs, List.append_assoc, List.singleton_append, Text.splitAt_append]
    -- after the line break only an empty row is left of the first text
    rw [writtenRows, writtenRows, writtenRows, hx, hxy, List.filter_append, List.filter_append]
    simp [Text.trim, Text.trimStart, Text.trimEnd, Text.dropLastWhile]

theorem ofText_append (h : x = "" ∨ x.toList.getLast? = some '\n')
    (hapart : EndsSection x ∨ StartsSection y) : ofText (x ++ y) = ofText x ++ ofText y := by
  have hrecords : records (x ++ y) = records x ++ records y := by
    rw [records, writtenRows_append h, List.filterMap_append]
    rfl
  rw [ofText_eq, ofText_eq, ofText_eq, hrecords]
  rcases hapart with ⟨row, hlast, hrow⟩ | ⟨row, path, hfirst, hrow⟩
  · obtain ⟨before, hbefore⟩ := List.getLast?_eq_some_iff.1 hlast
    have hx : records x = before.filterMap ofRow? ++ [.endOfSection] := by
      rw [records, hbefore, List.filterMap_append, List.filterMap_cons_some (ofRow?_of_end hrow)]
      rfl
    rw [hx, TraceReader.readAll_append_of_end]
  · obtain ⟨after, hafter⟩ := List.head?_eq_some_iff.1 hfirst
    have hy : records y = .source (String.ofList path) :: after.filterMap ofRow? := by
      rw [records, hafter, List.filterMap_cons_some (ofRow?_of_source hrow)]
    rw [hy, TraceReader.readAll_append_of_source]

end TracedFile

/-! ## 6. What is said of a file -/

namespace TraceRecord

variable {opened : OpenSection} {records : List TraceRecord} {found : String × List TraceRecord}

/-- The records of an open section as they came. -/
def written : OpenSection → List TraceRecord
  | none => []
  | some (path, records) => .source path :: records.reverse

/-- Only what an open section may hold: no marks. -/
def Unmarked (opened : OpenSection) : Prop := ∀ s, opened = some s → ∀ r ∈ s.2, r.isMark = false

theorem infix_of_mem_close (h : found ∈ sectionsFrom.close opened) (hopened : Unmarked opened)
    (rest : List TraceRecord) :
    .source found.1 :: found.2 <:+: written opened ++ rest ∧ ∀ r ∈ found.2, r.isMark = false := by
  rw [sectionsFrom.close, List.mem_map] at h
  obtain ⟨s, hs, rfl⟩ := h
  rw [Option.mem_toList] at hs
  rw [hs]
  exact ⟨(List.prefix_append _ rest).isInfix, fun r hr => hopened s hs r (List.mem_reverse.1 hr)⟩

/-- A section is a stretch of the records: its mark, and what comes before the next one. -/
theorem infix_of_mem_sectionsFrom (h : found ∈ sectionsFrom opened records)
    (hopened : Unmarked opened) :
    .source found.1 :: found.2 <:+: written opened ++ records ∧
      ∀ r ∈ found.2, r.isMark = false := by
  induction records generalizing opened with
  | nil => exact infix_of_mem_close h hopened []
  | cons record rest ih =>
    have hrest : rest <:+: written opened ++ record :: rest :=
      ((List.suffix_cons record rest).trans (List.suffix_append _ _)).isInfix
    cases hmark : record.isMark with
    | false =>
      rw [sectionsFrom_of_not_isMark hmark] at h
      cases opened with
      | none =>
        obtain ⟨hin, hnone⟩ := ih h fun s hs => nomatch hs
        exact ⟨hin.trans hrest, hnone⟩
      | some own =>
        obtain ⟨path, before⟩ := own
        have hnext : Unmarked (some (path, record :: before)) := by
          intro s hs
          obtain rfl := Option.some.inj hs
          exact List.forall_mem_cons.2 ⟨hmark, hopened _ rfl⟩
        have hwritten : written (some (path, record :: before)) ++ rest =
            written (some (path, before)) ++ record :: rest := by
          show .source path :: (record :: before).reverse ++ rest = _
          rw [List.reverse_cons, ← List.cons_append, List.append_assoc, List.singleton_append]
          rfl
        rw [← hwritten]
        exact ih h hnext
    | true =>
      cases record with
      | source path =>
        rcases List.mem_append.1 h with h | h
        · exact infix_of_mem_close h hopened _
        · obtain ⟨hin, hnone⟩ := ih h fun s hs r hr => by
            obtain rfl := Option.some.inj hs
            cases hr
          exact ⟨hin.trans (List.suffix_append _ _).isInfix, hnone⟩
      | endOfSection =>
        rcases List.mem_append.1 h with h | h
        · exact infix_of_mem_close h hopened _
        · obtain ⟨hin, hnone⟩ := ih h fun s hs => nomatch hs
          exact ⟨hin.trans hrest, hnone⟩
      | _ => cases hmark

/-- The arms that records report, with the lines that they belong to. -/
def reportedArms (records : List TraceRecord) : List (Nat × Nat) :=
  records.filterMap fun
    | branch n hits => some (n, hits)
    | _ => none

theorem map_armHits (earlier : List Nat) (records : List TraceRecord) :
    (armHits earlier records).map (fun a => (a.line, a.hits)) = reportedArms records := by
  induction records generalizing earlier with
  | nil => rfl
  | cons record rest ih =>
    cases record with
    | branch n hits => exact congrArg ((n, hits) :: ·) (ih (n :: earlier))
    | _ => exact ih earlier

end TraceRecord

namespace TracedFile

open TraceRecord

theorem ofBytes?_toUTF8 (text : String) : ofBytes? text.toUTF8 = .ok (ofText text) := by
  rw [ofBytes?, Text.decodeUtf8_toUTF8]

/-- The file lists the arms that a section of the records reports, in their order, and numbers those
of each line from zero on. -/
structure ArmsInOrder (all : List TraceRecord) (f : TracedFile) : Prop where
  reported : ∃ own, .source f.path :: own <:+: all ∧ (∀ r ∈ own, r.isMark = false) ∧
    f.arms.map (fun a => (a.line, a.hits)) = reportedArms own
  numbered : ∀ n, (f.arms.filter fun a => a.line == n).map (·.arm) =
    List.range (f.arms.filter fun a => a.line == n).length

theorem armsInOrder_of_mem_ofText {text : String} {f : TracedFile} (h : f ∈ ofText text) :
    f.ArmsInOrder (records text) := by
  rw [ofText_eq, TraceReader.readAll_eq, List.mem_map] at h
  obtain ⟨found, hfound, rfl⟩ := h
  obtain ⟨hin, hnone⟩ := infix_of_mem_sectionsFrom hfound fun s hs => nomatch hs
  refine ⟨⟨found.2, hin, hnone, map_armHits [] found.2⟩, fun n => ?_⟩
  have hnumbers := arms_armHits n [] found.2
  rw [List.count_nil, ← List.range_eq_range'] at hnumbers
  exact hnumbers

/-- **Tracefiles that follow each other are read apart.**  When a text is empty or ends with a line
break, and it closes its last section or the next text opens one, both together give the files of
the one and then those of the other.  Every text gives files, in which arms are numbered within
their lines as they come and nothing is said of the hits of line zero. -/
theorem tracefiles_read_apart :
    (∀ x y : String, (x = "" ∨ x.toList.getLast? = some '\n') →
      EndsSection x ∨ StartsSection y →
      ∃ files others, ofBytes? x.toUTF8 = .ok files ∧ ofBytes? y.toUTF8 = .ok others ∧
        ofBytes? (x ++ y).toUTF8 = .ok (files ++ others)) ∧
    ∀ text : String, ∃ files, ofBytes? text.toUTF8 = .ok files ∧
      files = TraceReader.readAll (records text) ∧
      ∀ f ∈ files, f.ArmsInOrder (records text) ∧ ∀ l ∈ f.lines, 0 < l.line := by
  refine ⟨fun x y hbreak hapart => ?_, fun text => ?_⟩
  · refine ⟨ofText x, ofText y, ofBytes?_toUTF8 x, ofBytes?_toUTF8 y, ?_⟩
    rw [ofBytes?_toUTF8, ofText_append hbreak hapart]
  · refine ⟨ofText text, ofBytes?_toUTF8 text, ofText_eq text, fun f hf => ?_⟩
    refine ⟨armsInOrder_of_mem_ofText hf, fun l hl => Nat.pos_of_ne_zero ?_⟩
    exact line_ne_zero_of_ofBytes? (ofBytes?_toUTF8 text) f hf l hl

/-- A section that is still open, with an arm and a place that the next section does not get. -/
theorem tracefiles_read_apart_unfinished :
    ("SF:a\nFN:3,f\nBRDA:1,0,0,1\n".toList.getLast? = some '\n') ∧
    StartsSection "\n SF:b\r\nFNDA:2,f\nBRDA:1,0,0,-\nBRDA:1,0,1,4" ∧
    ∃ files others, ofBytes? "SF:a\nFN:3,f\nBRDA:1,0,0,1\n".toUTF8 = .ok files ∧
      ofBytes? "\n SF:b\r\nFNDA:2,f\nBRDA:1,0,0,-\nBRDA:1,0,1,4".toUTF8 = .ok others ∧
      ofBytes? ("SF:a\nFN:3,f\nBRDA:1,0,0,1\n" ++
        "\n SF:b\r\nFNDA:2,f\nBRDA:1,0,0,-\nBRDA:1,0,1,4").toUTF8 = .ok (files ++ others) ∧
      files ++ others =
        [{ path := "a", arms := [⟨1, 0, 1⟩] },
          { path := "b", arms := [⟨1, 0, 0⟩, ⟨1, 1, 4⟩], functions := [⟨"f", none, none, 2⟩] }] := by
  have hbreak : "SF:a\nFN:3,f\nBRDA:1,0,0,1\n".toList.getLast? = some '\n' := by decide
  have hstart : StartsSection "\n SF:b\r\nFNDA:2,f\nBRDA:1,0,0,-\nBRDA:1,0,1,4" :=
    ⟨" SF:b\r".toList, ['b'], by rfl, by rfl⟩
  obtain ⟨files, others, hfiles, hothers, hall⟩ :=
    tracefiles_read_apart.1 _ _ (.inr hbreak) (.inr hstart)
  refine ⟨hbreak, hstart, files, others, hfiles, hothers, hall, ?_⟩
  rw [ofBytes?_toUTF8] at hfiles hothers
  rw [← Except.ok.inj hfiles, ← Except.ok.inj hothers]
  rfl

end TracedFile

end CoverageLedger
