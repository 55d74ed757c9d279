import CoverageLedger.Diff.Unified
import CoverageLedger.Proofs.Diff.Lands
import CoverageLedger.Proofs.Text.Pieces
import Mathlib.Data.List.TakeWhile

/-!
# Diffs in print

`Diff.print` writes a diff as version control does, with the rows that carry nothing of it wherever
`Notes` ask for them.  The reader undoes it (`parse_print`): of a hunk it takes as many rows as the
header says, so that a row of a hunk may look like anything.
-/

namespace CoverageLedger

open Hunk (rowCount)

/-! ## 1. Printing -/

/-- The header row of a hunk. -/
def HunkSpan.row (s : HunkSpan) : String :=
  "@@ -" ++ toString s.oldStart ++ "," ++ toString s.oldLength ++ " +" ++ toString s.newStart ++ "," ++
    toString s.newLength ++ " @@"

namespace DiffFile

/-- The old side of a file: a new file has none. -/
def oldSide (path : String) (kind : ChangeKind) : String :=
  if kind = .new then missingSide else "a/" ++ path

/-- The new side of a file: a deleted file has none. -/
def newSide (path : String) (kind : ChangeKind) : String :=
  if kind = .deleted then missingSide else "b/" ++ path

/-- Lines of a hunk, each with the remarks on it, by the number of the line in the hunk. -/
def lineRows (remarks : Nat → List String) (i : Nat) : List String → List String
  | [] => []
  | line :: rest => line :: (remarks i ++ lineRows remarks (i + 1) rest)

/-- The rows of hunks, with remarks on lines by the numbers of the hunk and of the line. -/
def hunkRows (remarks : Nat → Nat → List String) (k : Nat) : List Hunk → List String
  | [] => []
  | h :: rest =>
    (h.span?.toOption.map HunkSpan.row).toList ++ lineRows (remarks k) 0 h.lines ++
      hunkRows remarks (k + 1) rest

end DiffFile

/-- The rows of a printed diff that carry nothing of it. -/
structure Notes where
  /-- The rows before the file of a path. -/
  before : String → List String
  /-- The remarks on a line, by the path, the number of the hunk and the number of the line. -/
  remarks : String → Nat → Nat → List String
  /-- The rows after all files. -/
  last : List String

namespace Diff

/-- The rows of a file of a diff. -/
def fileRows (notes : Notes) (path : String) (f : DiffFile) : List String :=
  notes.before path ++
    ["--- " ++ DiffFile.oldSide path f.kind, "+++ " ++ DiffFile.newSide path f.kind] ++
    DiffFile.hunkRows (notes.remarks path) 0 f.hunks

def printedRows (notes : Notes) (d : Diff) : List String :=
  (d.files.entries.flatMap fun e => fileRows notes e.1 e.2) ++ notes.last

/-- A diff as a text, in which every row has an end. -/
def print (notes : Notes) (d : Diff) : String :=
  String.ofList ((printedRows notes d).flatMap fun row => row.toList ++ ['\n'])

end Diff

/-! ## 2. What can be printed -/

/-- A row that names a file or its contents for version control. -/
def IsNote (row : String) : Prop :=
  ("diff --git ".toList <+: row.toList ∨ "index ".toList <+: row.toList) ∧ '\n' ∉ row.toList

/-- A row that belongs to neither side. -/
def IsRemark (row : String) : Prop := ['\\'] <+: row.toList ∧ '\n' ∉ row.toList

structure Notes.Fit (notes : Notes) : Prop where
  before : ∀ path, ∀ row ∈ notes.before path, IsNote row
  remarks : ∀ path k i, ∀ row ∈ notes.remarks path k i, IsRemark row
  last : ∀ row ∈ notes.last, IsNote row

/-- The numbers of a header are stored in 32 bits. -/
structure HunkSpan.Fits (s : HunkSpan) : Prop where
  oldStart : s.oldStart < Text.word32
  oldLength : s.oldLength < Text.word32
  newStart : s.newStart < Text.word32
  newLength : s.newLength < Text.word32

/-- A line of a hunk is no remark and holds no end of a row. -/
structure PrintableLine (line : String) : Prop where
  noRemark : line.toList.head? ≠ some '\\'
  noEnd : '\n' ∉ line.toList
  noReturn : line.toList.getLast? ≠ some '\r'

/-- A header with all its numbers, and as many lines as it says. -/
structure Hunk.Printable (h : Hunk) : Prop where
  header : ∃ s : HunkSpan, s.Fits ∧ h.header = s.header ∧
    s.oldLength = rowCount .forward h.lines ∧ s.newLength = rowCount .backward h.lines
  lines : ∀ line ∈ h.lines, PrintableLine line

/-- The name of a side of a file: in one row, without a tab, and not blank at the end. -/
structure PrintableSide (side : String) : Prop where
  noTab : '\t' ∉ side.toList
  noEnd : '\n' ∉ side.toList
  notBlank : ∀ c, side.toList.getLast? = some c → Text.isBlank c = false

/-- The name of a file, which is not that of the missing side. -/
structure PrintablePath (path : String) : Prop extends PrintableSide path where
  notMissing : path ≠ missingSide

/-- Everything is in the text: the change is of one of the three kinds, and there are no totals. -/
structure DiffFile.Printable (path : String) (f : DiffFile) : Prop where
  path : PrintablePath path
  kind : f.kind ≠ .other
  totals : f.totals = none
  hunks : ∀ h ∈ f.hunks, h.Printable

structure Diff.Printable (d : Diff) : Prop where
  files : ∀ e ∈ d.files.entries, e.2.Printable e.1
  totals : d.totals = none

namespace PrintableSide

variable {side path : String}

theorem of_last {c : Char} (htab : '\t' ∉ side.toList) (hend : '\n' ∉ side.toList)
    (hlast : side.toList.getLast? = some c) (hblank : Text.isBlank c = false) :
    PrintableSide side where
  noTab := htab
  noEnd := hend
  notBlank d hd := by
    rw [hlast] at hd
    rwa [← Option.some.inj hd]

theorem missing : PrintableSide missingSide :=
  of_last (c := 'l') (by decide) (by decide) (by decide) (by decide)

/-- A side may have a directory before it. -/
theorem append {start : String} (hstart : PrintableSide start) (hside : PrintableSide side) :
    PrintableSide (start ++ side) where
  noTab := by
    rw [String.toList_append, List.mem_append, not_or]
    exact ⟨hstart.noTab, hside.noTab⟩
  noEnd := by
    rw [String.toList_append, List.mem_append, not_or]
    exact ⟨hstart.noEnd, hside.noEnd⟩
  notBlank := by
    intro c hc
    rw [String.toList_append, List.getLast?_append, Option.or_eq_some_iff] at hc
    rcases hc with hc | ⟨-, hc⟩
    · exact hside.notBlank c hc
    · exact hstart.notBlank c hc

theorem oldSide (h : PrintableSide path) (kind : ChangeKind) :
    PrintableSide (DiffFile.oldSide path kind) := by
  have hdirectory : PrintableSide "a/" :=
    of_last (c := '/') (by decide) (by decide) (by decide) (by decide)
  rw [DiffFile.oldSide]
  split
  · exact missing
  · exact hdirectory.append h

theorem newSide (h : PrintableSide path) (kind : ChangeKind) :
    PrintableSide (DiffFile.newSide path kind) := by
  have hdirectory : PrintableSide "b/" :=
    of_last (c := '/') (by decide) (by decide) (by decide) (by decide)
  rw [DiffFile.newSide]
  split
  · exact missing
  · exact hdirectory.append h

end PrintableSide

/-! ## 3. Single rows -/

/-- The numbers of a side of a hunk header. -/
def sideChars (start length : Nat) : List Char :=
  [','].intercalate [Nat.toDigits 10 start, Nat.toDigits 10 length]

theorem toList_row (s : HunkSpan) : s.row.toList = "@@ ".toList ++ [' '].intercalate
    ['-' :: sideChars s.oldStart s.oldLength, '+' :: sideChars s.newStart s.newLength,
      "@@".toList] := by
  simp only [HunkSpan.row, sideChars, String.toList_append, Text.toList_toString,
    List.intercalate_cons_cons, List.intercalate_singleton, List.append_assoc, List.cons_append,
    List.nil_append]
  rfl

/-- No blank stands among the numbers of a side. -/
theorem not_mem_sideChars {c : Char} (hdigit : c.isDigit = false) (hcomma : c ≠ ',')
    (start length : Nat) : c ∉ sideChars start length := by
  have hnumber (n : Nat) : c ∉ Nat.toDigits 10 n := fun h => by
    rw [Text.isDigit_of_mem_toDigits h] at hdigit
    cases hdigit
  rw [sideChars, List.intercalate_cons_cons, List.intercalate_singleton]
  simp only [List.mem_append, List.mem_singleton, not_or]
  exact ⟨⟨hnumber start, hcomma⟩, hnumber length⟩

namespace UnifiedState

variable {s : UnifiedState} {cs : List Char} {path : String}

theorem headerLine_git (s : UnifiedState) (cs : List Char) :
    s.headerLine ("diff --git ".toList ++ cs) = { s.flush with oldPath := none } := rfl

theorem headerLine_index (s : UnifiedState) (cs : List Char) :
    s.headerLine ("index ".toList ++ cs) = s := by
  obtain ⟨_, _, current, _, _⟩ := s
  cases current <;> rfl

theorem headerLine_oldSide (s : UnifiedState) (cs : List Char) :
    s.headerLine ("--- ".toList ++ cs) = { s with oldPath := some (pathOf cs) } := rfl

theorem headerLine_newSide (s : UnifiedState) (cs : List Char) :
    s.headerLine ("+++ ".toList ++ cs) =
      { s.flush with
        oldPath := none
        current := some ((change s.oldPath (pathOf cs)).2,
          { kind := (change s.oldPath (pathOf cs)).1 }) } := rfl

theorem headerLine_hunk (s : UnifiedState) (cs : List Char) :
    s.headerLine ("@@ ".toList ++ cs) =
      match s.current, span? cs with
      | some (path, file), some span =>
        { s with
          oldLeft := span.oldLength
          newLeft := span.newLength
          current := some (path, { file with hunks := file.hunks ++ [⟨span.header, []⟩] }) }
      | _, _ => s := rfl

/-- A remark is passed over inside a hunk and after it. -/
theorem row_remark (s : UnifiedState) (h : ['\\'] <+: cs) : s.row cs = s := by
  obtain ⟨rest, rfl⟩ := h
  rw [row]
  split
  · rw [hunkLine, if_pos (by rw [String.toList_ofList]; rfl)]
  · obtain ⟨_, _, current, _, _⟩ := s
    cases current <;> rfl

theorem side?_sideChars {start length : Nat} (hstart : start < Text.word32)
    (hlength : length < Text.word32) : side? (sideChars start length) = some (start, length) := by
  have hcomma (n : Nat) : ',' ∉ Nat.toDigits 10 n := fun h =>
    absurd (Text.isDigit_of_mem_toDigits h) (by decide)
  have hpieces : Text.splitAt ',' (sideChars start length) =
      [Nat.toDigits 10 start, Nat.toDigits 10 length] := by
    apply Text.splitAt_intercalate (List.cons_ne_nil _ _)
    intro p hp
    simp only [List.mem_cons, List.not_mem_nil, or_false] at hp
    rcases hp with rfl | rfl <;> exact hcomma _
  rw [side?, hpieces]
  simp only [Text.nat32?_toDigits hstart, Text.nat32?_toDigits hlength, bind, Option.bind_some, pure]

theorem span?_intercalate {h : HunkSpan} (hfits : h.Fits) :
    span? ([' '].intercalate ['-' :: sideChars h.oldStart h.oldLength,
      '+' :: sideChars h.newStart h.newLength, "@@".toList]) = some h := by
  obtain ⟨hstart, hlength, hstart', hlength'⟩ := hfits
  have hside (mark : Char) (start length : Nat) (hmark : ' ' ≠ mark) :
      ' ' ∉ mark :: sideChars start length :=
    List.not_mem_cons_of_ne_of_not_mem hmark (not_mem_sideChars rfl (by decide) _ _)
  have hparts : ∀ p ∈ ['-' :: sideChars h.oldStart h.oldLength,
      '+' :: sideChars h.newStart h.newLength, "@@".toList], ' ' ∉ p :=
    List.forall_mem_cons.2 ⟨hside _ _ _ (by decide), List.forall_mem_cons.2
      ⟨hside _ _ _ (by decide), List.forall_mem_singleton.2 (by decide)⟩⟩
  rw [span?, Text.splitAt_intercalate (List.cons_ne_nil _ _) hparts]
  simp only [side?_sideChars hstart hlength, side?_sideChars hstart' hlength', bind,
    Option.bind_some, pure]

/-- Inside the last hunk of a file: its lines so far, and how many rows are to come. -/
def inHunk (files : Table String DiffFile) (path : String) (f : DiffFile) (h : Hunk)
    (old new : Nat) : UnifiedState :=
  { files, current := some (path, { f with hunks := f.hunks ++ [h] }), oldLeft := old, newLeft := new }

/-- Inside a file, with no row of a hunk to come. -/
def inFile (files : Table String DiffFile) (path : String) (f : DiffFile) : UnifiedState :=
  { files, current := some (path, f) }

variable {files : Table String DiffFile} {f : DiffFile} {h : Hunk}

theorem row_header {hs : HunkSpan} (hfits : hs.Fits) :
    (inFile files path f).row hs.row.toList =
      inHunk files path f ⟨hs.header, []⟩ hs.oldLength hs.newLength := by
  rw [row, inFile, if_neg (by simp only [Nat.lt_irrefl, or_self, not_false_eq_true]), toList_row,
    headerLine_hunk, span?_intercalate hfits]
  rfl

theorem addLine_concat (line : String) (f : DiffFile) (h : Hunk) :
    addLine line { f with hunks := f.hunks ++ [h] } =
      { f with hunks := f.hunks ++ [{ h with lines := h.lines ++ [line] }] } := by
  rw [addLine]
  simp only [List.getLast?_concat, List.dropLast_concat]

/-- A row that is no remark is a line, as long as a side has rows to come. -/
theorem row_line {line : String} (hline : PrintableLine line) (rest : List String) :
    (inHunk files path f h (rowCount .forward (line :: rest))
        (rowCount .backward (line :: rest))).row line.toList =
      inHunk files path f { h with lines := h.lines ++ [line] } (rowCount .forward rest)
        (rowCount .backward rest) := by
  have hleft : 0 < rowCount .forward (line :: rest) ∨ 0 < rowCount .backward (line :: rest) := by
    rw [rowCount, rowCount]
    cases LineMark.of line
    · exact .inr (Nat.succ_pos _)
    · exact .inl (Nat.succ_pos _)
    · exact .inl (Nat.succ_pos _)
  rw [row, inHunk, if_pos hleft, String.ofList_toList, hunkLine, if_neg hline.noRemark]
  simp only [Option.map_some, addLine_concat]
  rw [rowCount, rowCount]
  cases LineMark.of line <;> rfl

/-! ## 4. The rows of a file -/

/-- Read rows one after the other. -/
def read (s : UnifiedState) (rows : List String) : UnifiedState :=
  rows.foldl (fun s row => s.row (Text.dropReturn row.toList)) s

@[simp] theorem read_nil (s : UnifiedState) : s.read [] = s := rfl

@[simp] theorem read_cons (s : UnifiedState) (row : String) (rows : List String) :
    s.read (row :: rows) = (s.row (Text.dropReturn row.toList)).read rows := rfl

@[simp] theorem read_append (s : UnifiedState) (rows others : List String) :
    s.read (rows ++ others) = (s.read rows).read others := List.foldl_append

theorem read_remarks (s : UnifiedState) {rows : List String} (h : ∀ row ∈ rows, IsRemark row) :
    s.read rows = s := by
  induction rows with
  | nil => rfl
  | cons row rest ih =>
    have hrow := Text.prefix_dropReturn (by decide) (h row List.mem_cons_self).1
    rw [read_cons, row_remark s hrow, ih fun r hr => h r (List.mem_cons_of_mem row hr)]

/-- All lines of a hunk are read when the counts say that they are to come, and none are left. -/
theorem read_lineRows {remarks : Nat → List String} (hremarks : ∀ i, ∀ row ∈ remarks i, IsRemark row)
    {lines : List String} (hlines : ∀ line ∈ lines, PrintableLine line) (h : Hunk) (i : Nat) :
    (inHunk files path f h (rowCount .forward lines) (rowCount .backward lines)).read
        (DiffFile.lineRows remarks i lines) =
      inFile files path { f with hunks := f.hunks ++ [{ h with lines := h.lines ++ lines }] } := by
  induction lines generalizing h i with
  | nil =>
    rw [List.append_nil]
    rfl
  | cons line rest ih =>
    have hline := hlines line List.mem_cons_self
    rw [DiffFile.lineRows, read_cons, Text.dropReturn_eq_self hline.noReturn, row_line hline,
      read_append, read_remarks _ (hremarks i),
      ih fun l hl => hlines l (List.mem_cons_of_mem line hl)]
    simp only [List.append_assoc, List.singleton_append]

theorem getLast?_row (s : HunkSpan) : s.row.toList.getLast? = some '@' := by
  rw [HunkSpan.row, String.toList_append, List.getLast?_append]
  rfl

theorem read_hunkRows {remarks : Nat → Nat → List String}
    (hremarks : ∀ k i, ∀ row ∈ remarks k i, IsRemark row) {hunks : List Hunk}
    (hhunks : ∀ h ∈ hunks, h.Printable) (f : DiffFile) (k : Nat) :
    (inFile files path f).read (DiffFile.hunkRows remarks k hunks) =
      inFile files path { f with hunks := f.hunks ++ hunks } := by
  induction hunks generalizing f k with
  | nil =>
    rw [List.append_nil]
    rfl
  | cons h rest ih =>
    obtain ⟨header, lines⟩ := h
    have hprintable := hhunks _ List.mem_cons_self
    obtain ⟨span, hfits, rfl, hold, hnew⟩ := hprintable.header
    have hrow : Text.dropReturn span.row.toList = span.row.toList :=
      Text.dropReturn_eq_self (by rw [getLast?_row]; decide)
    have hspan : (Hunk.span? ⟨span.header, lines⟩).toOption = some span := rfl
    rw [DiffFile.hunkRows, hspan, Option.map_some, Option.toList_some, read_append, read_append,
      read_cons, read_nil, hrow, row_header hfits, hold, hnew,
      read_lineRows (hremarks k) hprintable.lines,
      ih fun h' hh' => hhunks h' (List.mem_cons_of_mem _ hh')]
    simp only [List.nil_append, List.append_assoc, List.singleton_append]

/-- Between two files: what was read so far is there once the last file is closed. -/
structure Between (s : UnifiedState) (files : Table String DiffFile) : Prop where
  files : s.flush.files = files
  old : s.oldLeft = 0
  new : s.newLeft = 0

theorem Between.row_eq (h : Between s files) (cs : List Char) : s.row cs = s.headerLine cs := by
  rw [row, if_neg (by rw [h.old, h.new]; decide)]

theorem flush_of_closed (h : s.current = none) : s.flush = s := by
  rw [flush, h]

/-- Closing a file changes nothing but the files. -/
theorem flush_spec (s : UnifiedState) :
    s.flush.current = none ∧ s.flush.oldLeft = s.oldLeft ∧ s.flush.newLeft = s.newLeft := by
  obtain ⟨_, _, current, _, _⟩ := s
  cases current <;> exact ⟨rfl, rfl, rfl⟩

theorem Between.read_notes (h : Between s files) {rows : List String}
    (hrows : ∀ row ∈ rows, IsNote row) : Between (s.read rows) files := by
  induction rows generalizing s with
  | nil => exact h
  | cons row rest ih =>
    have hrest : ∀ r ∈ rest, IsNote r := fun r hr => hrows r (List.mem_cons_of_mem row hr)
    rw [read_cons, h.row_eq]
    rcases (hrows row List.mem_cons_self).1 with hgit | hindex
    · obtain ⟨tail, htail⟩ := Text.prefix_dropReturn (by decide) hgit
      obtain ⟨hclosed, hold, hnew⟩ := flush_spec s
      have hfiles : ({ s.flush with oldPath := none } : UnifiedState).flush.files = files :=
        (congrArg UnifiedState.files
          (flush_of_closed (s := { s.flush with oldPath := none }) hclosed)).trans h.files
      rw [← htail, headerLine_git]
      exact ih ⟨hfiles, hold.trans h.old, hnew.trans h.new⟩ hrest
    · obtain ⟨tail, htail⟩ := Text.prefix_dropReturn (by decide) hindex
      rw [← htail, headerLine_index]
      exact ih h hrest

/-- A path without the one-letter directory before it. -/
def bareOf (cs : List Char) : String :=
  String.ofList
    (match Text.afterStart "b/".toList cs with
      | some rest => rest
      | none => (Text.afterStart "a/".toList cs).getD cs)

theorem bareOf_old (path : String) : bareOf ("a/" ++ path).toList = path := by
  rw [bareOf, String.toList_append, Text.afterStart_append]
  exact String.ofList_toList

theorem bareOf_new (path : String) : bareOf ("b/" ++ path).toList = path := by
  rw [bareOf, String.toList_append, Text.afterStart_append]
  exact String.ofList_toList

/-- Nothing else is dropped from the name of a side. -/
theorem pathOf_eq_bareOf {side : String} (h : PrintableSide side) :
    pathOf side.toList = bareOf side.toList := by
  have htab : side.toList.takeWhile (· ≠ '\t') = side.toList :=
    List.takeWhile_eq_self_iff.2 fun c hc => by
      rw [decide_eq_true_eq]
      rintro rfl
      exact h.noTab hc
  have hkept : Text.trimEnd (side.toList.takeWhile (· ≠ '\t')) = side.toList := by
    rw [htab, Text.trimEnd, Text.dropLastWhile_eq_self h.notBlank]
  exact congrArg bareOf hkept

theorem pathOf_oldSide (h : PrintableSide path) (kind : ChangeKind) :
    pathOf (DiffFile.oldSide path kind).toList = if kind = .new then missingSide else path := by
  rw [pathOf_eq_bareOf (h.oldSide kind), DiffFile.oldSide]
  by_cases hkind : kind = .new
  · rw [if_pos hkind, if_pos hkind]
    decide
  · rw [if_neg hkind, if_neg hkind, bareOf_old]

theorem pathOf_newSide (h : PrintableSide path) (kind : ChangeKind) :
    pathOf (DiffFile.newSide path kind).toList = if kind = .deleted then missingSide else path := by
  rw [pathOf_eq_bareOf (h.newSide kind), DiffFile.newSide]
  by_cases hkind : kind = .deleted
  · rw [if_pos hkind, if_pos hkind]
    decide
  · rw [if_neg hkind, if_neg hkind, bareOf_new]

/-- The kind of a change and its path are told by the two sides. -/
theorem change_sides (h : path ≠ missingSide) {kind : ChangeKind} (hkind : kind ≠ .other) :
    change (some (if kind = .new then missingSide else path))
      (if kind = .deleted then missingSide else path) = (kind, path) := by
  cases kind with
  | new => rfl
  | modified =>
    show change (some path) path = _
    rw [change, if_neg h, if_neg h]
  | deleted =>
    show change (some path) missingSide = _
    rw [change, if_neg h, if_pos rfl]
  | other => exact absurd rfl hkind

/-- The name of a side has no carriage return at its end. -/
theorem dropReturn_side {mark side : String} (hmark : mark.toList.getLast? = some ' ')
    (h : PrintableSide side) :
    Text.dropReturn (mark ++ side).toList = mark.toList ++ side.toList := by
  rw [String.toList_append]
  apply Text.dropReturn_eq_self
  rw [List.getLast?_append, hmark]
  intro hlast
  rcases Option.or_eq_some_iff.1 hlast with hside | ⟨-, hspace⟩
  · exact absurd (h.notBlank _ hside) (by decide)
  · exact absurd hspace (by decide)

theorem Between.read_sides (h : Between s files) (hpath : PrintablePath path) {kind : ChangeKind}
    (hkind : kind ≠ .other) :
    s.read ["--- " ++ DiffFile.oldSide path kind, "+++ " ++ DiffFile.newSide path kind] =
      inFile files path { kind } := by
  have hside := hpath.toPrintableSide
  have hnamed (old : Option String) : Between { s with oldPath := old } files := by
    obtain ⟨_, _, current, _, _⟩ := s
    cases current <;> exact ⟨h.files, h.old, h.new⟩
  rw [read_cons, read_cons, read_nil, dropReturn_side rfl (hside.oldSide kind),
    dropReturn_side rfl (hside.newSide kind), h.row_eq, headerLine_oldSide,
    pathOf_oldSide hside, (hnamed _).row_eq, headerLine_newSide, pathOf_newSide hside,
    change_sides hpath.notMissing hkind]
  obtain ⟨-, hold, hnew⟩ :=
    flush_spec { s with oldPath := some (if kind = .new then missingSide else path) }
  rw [inFile, UnifiedState.mk.injEq]
  exact ⟨(hnamed _).files, rfl, rfl, hold.trans h.old, hnew.trans h.new⟩

variable {notes : Notes} {d : Diff}

theorem flush_inFile (hfree : files.get? path = none) :
    (inFile files path f).flush = { files := files.insert path f } := by
  rw [flush, inFile]
  dsimp only
  rw [hfree]

theorem Between.read_fileRows (h : Between s files) (hnotes : notes.Fit) (hf : f.Printable path)
    (hfree : files.get? path = none) :
    Between (s.read (Diff.fileRows notes path f)) (files.insert path f) := by
  have hbefore := h.read_notes (hnotes.before path)
  have hfile : ({ kind := f.kind, hunks := [] ++ f.hunks } : DiffFile) = f := by
    rw [List.nil_append, ← hf.totals]
  rw [Diff.fileRows, read_append, read_append, hbefore.read_sides hf.path hf.kind,
    read_hunkRows (hnotes.remarks path) hf.hunks, hfile]
  exact ⟨congrArg UnifiedState.files (flush_inFile hfree), rfl, rfl⟩

/-- The files of a diff are read one after the other. -/
theorem Between.read_files (h : Between s files) (hnotes : notes.Fit)
    {entries : List (String × DiffFile)}
    (hascending : entries.Pairwise fun a b => Precedes a.1 b.1)
    (hfree : ∀ e ∈ entries, files.get? e.1 = none)
    (hentries : ∀ e ∈ entries, e.2.Printable e.1) :
    Between (s.read (entries.flatMap fun e => Diff.fileRows notes e.1 e.2))
      (files.insertAll entries) := by
  induction entries generalizing s files with
  | nil => exact h
  | cons e rest ih =>
    obtain ⟨hhead, hrest⟩ := List.pairwise_cons.1 hascending
    have hnext := h.read_fileRows hnotes (hentries e List.mem_cons_self)
      (hfree e List.mem_cons_self)
    rw [List.flatMap_cons, read_append]
    refine ih hnext hrest (fun e' he' => ?_) fun e' he' => hentries e' (List.mem_cons_of_mem e he')
    rw [Table.get?_insert, if_neg (Ne.symm (hhead e' he').ne)]
    exact hfree e' (List.mem_cons_of_mem e he')

end UnifiedState

/-! ## 5. The whole diff -/

namespace Diff

open UnifiedState

variable {notes : Notes} {d : Diff}

theorem noEnd_row (s : HunkSpan) : '\n' ∉ s.row.toList := by
  rw [toList_row, List.intercalate_cons_cons, List.intercalate_cons_cons,
    List.intercalate_singleton]
  simp only [List.mem_append, List.mem_cons, not_or]
  exact ⟨by decide, ⟨⟨by decide, not_mem_sideChars rfl (by decide) _ _⟩, by decide⟩,
    ⟨⟨by decide, not_mem_sideChars rfl (by decide) _ _⟩, by decide⟩, by decide⟩

theorem noEnd_lineRows {remarks : Nat → List String} (hremarks : ∀ i, ∀ row ∈ remarks i, IsRemark row)
    {lines : List String} (hlines : ∀ line ∈ lines, PrintableLine line) (i : Nat) :
    ∀ row ∈ DiffFile.lineRows remarks i lines, '\n' ∉ row.toList := by
  induction lines generalizing i with
  | nil => exact fun _ h => (List.not_mem_nil h).elim
  | cons line rest ih =>
    intro row hrow
    rw [DiffFile.lineRows, List.mem_cons, List.mem_append] at hrow
    rcases hrow with rfl | hremark | hrest
    · exact (hlines row List.mem_cons_self).noEnd
    · exact (hremarks i row hremark).2
    · exact ih (fun l hl => hlines l (List.mem_cons_of_mem line hl)) (i + 1) row hrest

theorem noEnd_hunkRows {remarks : Nat → Nat → List String}
    (hremarks : ∀ k i, ∀ row ∈ remarks k i, IsRemark row) {hunks : List Hunk}
    (hhunks : ∀ h ∈ hunks, h.Printable) (k : Nat) :
    ∀ row ∈ DiffFile.hunkRows remarks k hunks, '\n' ∉ row.toList := by
  induction hunks generalizing k with
  | nil => exact fun _ h => (List.not_mem_nil h).elim
  | cons h rest ih =>
    intro row hrow
    rw [DiffFile.hunkRows, List.mem_append, List.mem_append] at hrow
    rcases hrow with (hheader | hline) | hrest
    · obtain ⟨span, -, rfl⟩ := Option.map_eq_some_iff.1 (Option.mem_toList.1 hheader)
      exact noEnd_row span
    · exact noEnd_lineRows (hremarks k) (hhunks h List.mem_cons_self).lines 0 row hline
    · exact ih (fun h' hh' => hhunks h' (List.mem_cons_of_mem h hh')) (k + 1) row hrest

theorem noEnd_side {mark side : String} (hmark : '\n' ∉ mark.toList) (h : PrintableSide side) :
    '\n' ∉ (mark ++ side).toList := by
  rw [String.toList_append, List.mem_append, not_or]
  exact ⟨hmark, h.noEnd⟩

theorem noEnd_printedRows (hd : d.Printable) (hnotes : notes.Fit) :
    ∀ row ∈ printedRows notes d, '\n' ∉ row.toList := by
  intro row hrow
  rw [printedRows, List.mem_append, List.mem_flatMap] at hrow
  rcases hrow with ⟨⟨path, f⟩, he, hrow⟩ | hlast
  · have hf := hd.files (path, f) he
    have hside := hf.path.toPrintableSide
    rw [fileRows, List.mem_append, List.mem_append, List.mem_cons, List.mem_singleton] at hrow
    rcases hrow with (hbefore | rfl | rfl) | hhunks
    · exact (hnotes.before path row hbefore).2
    · exact noEnd_side (by decide) (hside.oldSide f.kind)
    · exact noEnd_side (by decide) (hside.newSide f.kind)
    · exact noEnd_hunkRows (hnotes.remarks path) hf.hunks 0 row hhunks
  · exact (hnotes.last row hlast).2

/-- The rows of the text are those that were printed. -/
theorem rows_print (hd : d.Printable) (hnotes : notes.Fit) :
    Text.rows (d.print notes).toList =
      (printedRows notes d).map fun row => Text.dropReturn row.toList := by
  have hchars := Text.rows_flatMap (List.forall_mem_map.2 (noEnd_printedRows hd hnotes))
  rw [List.flatMap_map, List.map_map] at hchars
  rw [print, String.toList_ofList]
  exact hchars

/-- **A printed diff is read back**, whatever its lines look like, and wherever rows that carry
nothing of it stand among the others. -/
theorem parse_print (hd : d.Printable) (hnotes : notes.Fit) : parse (d.print notes) = d := by
  have hstart : Between {} ∅ := ⟨rfl, rfl, rfl⟩
  have hread := (hstart.read_files hnotes d.files.ascending (fun _ _ => rfl) hd.files).read_notes
    hnotes.last
  rw [← read_append, ← printedRows] at hread
  rw [parse, rows_print hd hnotes, List.foldl_map]
  obtain ⟨files, totals⟩ := d
  rw [mk.injEq]
  exact ⟨hread.files.trans (Table.ofList_entries _), hd.totals.symm⟩

/-- A hunk whose lines look like the rows around it. -/
def disguisedHunk : Hunk where
  header := [some 1, some 3, some 1, some 3]
  lines := ["--- a/other", "+++ b/other", "", "@@ -9,9 +9,9 @@"]

/-- A changed file, a deleted one and a new one with an empty hunk. -/
def disguisedDiff : Diff where
  files := .ofList [("b/changed", { kind := .modified, hunks := [disguisedHunk] }),
    ("gone", { kind := .deleted }),
    ("made", { kind := .new, hunks := [⟨[some 0, some 0, some 0, some 0], []⟩] })]

/-- Rows before each file, and a remark on every line. -/
def gitNotes : Notes where
  before _ := ["diff --git a b", "index 0..1"]
  remarks _ _ _ := ["\\ No newline at end of file"]
  last := ["index 2..3"]

theorem fit_gitNotes : gitNotes.Fit where
  before _ := by
    simp only [gitNotes, List.forall_mem_cons, IsNote]
    decide
  remarks _ _ _ := by
    simp only [gitNotes, List.forall_mem_cons, IsRemark]
    decide
  last := by
    simp only [gitNotes, List.forall_mem_cons, IsNote]
    decide

theorem printable_disguisedHunk : disguisedHunk.Printable where
  header := ⟨⟨1, 3, 1, 3⟩, ⟨by decide, by decide, by decide, by decide⟩, rfl, by decide, by decide⟩
  lines := by
    have hline {line : String} (h : line.toList.head? ≠ some '\\' ∧ '\n' ∉ line.toList ∧
        line.toList.getLast? ≠ some '\r') : PrintableLine line := ⟨h.1, h.2.1, h.2.2⟩
    refine fun line hmem => hline ?_
    revert line
    decide

/-- The lines of the first file are told from the rows around it. -/
theorem parse_print_disguisedDiff :
    disguisedDiff.Printable ∧ gitNotes.Fit ∧
      parse (disguisedDiff.print gitNotes) = disguisedDiff := by
  have hpath {path : String} {c : Char} (h : '\t' ∉ path.toList ∧ '\n' ∉ path.toList ∧
      path.toList.getLast? = some c ∧ Text.isBlank c = false ∧ path ≠ missingSide) :
      PrintablePath path :=
    ⟨.of_last h.1 h.2.1 h.2.2.1 h.2.2.2.1, h.2.2.2.2⟩
  have hempty : Hunk.Printable ⟨[some 0, some 0, some 0, some 0], []⟩ :=
    ⟨⟨⟨0, 0, 0, 0⟩, ⟨by decide, by decide, by decide, by decide⟩, rfl, rfl, rfl⟩,
      fun _ h => (List.not_mem_nil h).elim⟩
  have hprintable : disguisedDiff.Printable := by
    refine ⟨?_, rfl⟩
    refine List.forall_mem_cons.2 ⟨?_, List.forall_mem_cons.2 ⟨?_, List.forall_mem_singleton.2 ?_⟩⟩
    · exact ⟨hpath (c := 'd') (by decide), by decide, rfl,
        List.forall_mem_singleton.2 printable_disguisedHunk⟩
    · exact ⟨hpath (c := 'e') (by decide), by decide, rfl, fun _ h => (List.not_mem_nil h).elim⟩
    · exact ⟨hpath (c := 'e') (by decide), by decide, rfl, List.forall_mem_singleton.2 hempty⟩
  exact ⟨hprintable, fit_gitNotes, parse_print hprintable fit_gitNotes⟩

end Diff

end CoverageLedger
