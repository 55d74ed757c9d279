import CoverageLedger.Proofs.Line.Decoded
import CoverageLedger.Proofs.Report.Archive

/-!
# Files with unread lines

A file of an archive answers some questions from the text of its chunk, and keeps what it was asked
before.  `PlainFile` is a file that keeps nothing: its lines by number and the lines it refuses.
`answers_unread` says that no sequence of calls tells the two apart, as long as the header of the
chunk is right about the lines below it.
-/

namespace CoverageLedger

/-! ## 1. Chunks that are written again -/

/-- The JSON of the line is read back from its text. -/
def Line.JsonReadsBack (l : Line) : Prop :=
  (Json.parse? l.text.toList).map Json.normal = some l.toJson

theorem Line.Fits.jsonReadsBack {l : Line} (h : l.Fits)
    (hread : l.toJson.Readable Json.depthLimit) : l.JsonReadsBack := by
  rw [JsonReadsBack, text, Json.render, String.toList_ofList, Json.parse?_chars hread,
    Option.map_some, normal_toJson h]

namespace Chunk

variable {chunk : String} {n : Nat} {l : Line}

theorem mem_of_mem_numbered {rows : List (Option Line)} {k : Nat} (h : (n, l) ∈ numbered k rows) :
    some l ∈ rows := by
  induction rows generalizing k with
  | nil => cases h
  | cons row rest ih =>
    cases row with
    | none => exact List.mem_cons_of_mem _ (ih h)
    | some own =>
      rcases List.mem_cons.1 h with heq | h
      · exact List.mem_cons.2 (.inl (congrArg some (Prod.mk.inj heq).2))
      · exact List.mem_cons_of_mem _ (ih h)

/-- The lines of a chunk are numbered from one, and each was read of some record. -/
theorem exists_record (h : (lines chunk).get? n = some l) :
    n ≠ 0 ∧ ∃ j, Line.ofJson? j = some l := by
  have hmem := (lines chunk).get?_eq_some_iff.1 h
  have hn : 1 ≤ n := le_of_mem_numbered hmem
  refine ⟨by omega, ?_⟩
  obtain ⟨row, -, hrow⟩ := List.mem_map.1 (mem_of_mem_numbered hmem)
  rw [lineOfRow] at hrow
  split at hrow
  · cases hrow
  · obtain ⟨j, -, hj⟩ := Option.bind_eq_some_iff.1 hrow
    exact ⟨j.normal, hj⟩

/-- All readings in a chunk are finite, and the JSON of each line is read back. -/
def ReadsBack (chunk : String) : Prop :=
  ∀ n l, (lines chunk).get? n = some l → l.Finite ∧ l.JsonReadsBack

theorem ReadsBack.lineOfRow_text (h : ReadsBack chunk) (hl : (lines chunk).get? n = some l) :
    lineOfRow l.text.toList = some l := by
  obtain ⟨hfinite, hjson⟩ := h n l hl
  obtain ⟨-, j, hj⟩ := exists_record hl
  obtain ⟨found, hfound, hnormal⟩ := Option.map_eq_some_iff.1 hjson
  rw [lineOfRow_eq_ofText?, Line.ofText?, hfound, Option.bind_some, hnormal]
  exact Line.ofJson?_toJson (Line.storable_of_ofJson? hj hfinite)

/-- A chunk whose lines are written anew has the same lines. -/
theorem ReadsBack.lines_encode (h : ReadsBack chunk) (ids : List Nat) :
    lines (encode ids (lines chunk)) = lines chunk := by
  rw [lines_encode_eq_filterMap fun n l hl => (exists_record hl).1]
  refine Table.ext_get? fun n => ?_
  rw [Table.get?_filterMap]
  cases hl : (lines chunk).get? n with
  | none => rfl
  | some l => exact h.lineOfRow_text hl

/-- The ids on the lines of a chunk can be written into a header. -/
theorem headerIds?_encode_lines (chunk : String) (table : Table Nat Line) :
    headerIds? (encode (SourceFile.idsOfLines (lines chunk)) table) =
      some (SourceFile.idsOfLines (lines chunk)) := by
  refine headerIds?_encode (fun id hid => ?_) (ascend_ascending _)
  obtain ⟨n, l, hl, hid⟩ := SourceFile.mem_idsOfLines.1 hid
  obtain ⟨-, j, hj⟩ := exists_record hl
  obtain ⟨s, hs, rfl⟩ := List.mem_map.1 hid
  exact Line.id_lt_of_ofJson? hj s hs

end Chunk

/-! ## 2. Accounts of sessions -/

namespace SourceFile

variable {f : SourceFile}

/-- What was taken from a header, and what an unread header says, are the ids on the lines. -/
structure Faithful (f : SourceFile) : Prop where
  declared : ∀ ids, f.declared = some ids → ids = idsOfLines f.lines
  header : ∀ chunk ids, f.content = .text chunk → Chunk.headerIds? chunk = some ids →
    ids = idsOfLines f.lines

theorem Faithful.exact (h : f.Faithful) : f.Exact := by
  unfold Exact sessionIds
  split
  · rename_i ids hids
    exact h.declared ids hids
  · split
    · rename_i chunk hchunk
      cases hheader : Chunk.headerIds? chunk with
      | none => rfl
      | some ids => exact h.header chunk ids hchunk hheader
    · rename_i table htable
      rw [lines, htable]

/-- A chunk with no header, with a header that cannot be read, or with one that is right. -/
theorem Faithful.ofChunk {name chunk : String} (h : ∀ ids, Chunk.headerIds? chunk = some ids →
    ids = idsOfLines (Chunk.lines chunk)) : Faithful { name, content := .text chunk } where
  declared := by
    intro ids hids
    cases hids
  header := by
    intro own ids hown hids
    cases hown
    exact h ids hids

theorem Faithful.opened (h : f.Faithful) : f.opened.Faithful where
  declared := h.declared
  header := by
    intro chunk ids hchunk
    cases hchunk

theorem Faithful.afterLines (h : f.Faithful) (numbers : List Nat) :
    (f.afterLines numbers).Faithful := by
  unfold SourceFile.afterLines
  split
  · exact h
  · exact h.opened

theorem Faithful.afterSessionIds (h : f.Faithful) : f.afterSessionIds.Faithful := by
  unfold SourceFile.afterSessionIds
  split
  · rename_i chunk hdeclared hchunk
    split
    · rename_i ids hids
      -- the header is right, so what was taken from it is
      refine ⟨fun own hown => ?_, h.header⟩
      obtain rfl := Option.some.inj hown
      exact h.header chunk ids hchunk hids
    · exact h.opened
  · exact h

/-- Nothing is kept of lines that were changed. -/
theorem Faithful.edit (change : Table Nat Line → Table Nat Line) : (f.edit change).Faithful where
  declared := by
    intro ids hids
    cases hids
  header := by
    intro chunk ids hchunk
    cases hchunk

theorem Faithful.withName (h : f.Faithful) (name : String) : Faithful { f with name } :=
  ⟨h.declared, h.header⟩

theorem Faithful.withIgnore (h : f.Faithful) (rule : Option IgnoreRule) :
    Faithful { f with ignore := rule } := ⟨h.declared, h.header⟩

theorem Faithful.mergeLines (h : f.Faithful) (other : Table Nat Line) (joined : Bool) :
    (f.mergeLines other joined).Faithful := by
  unfold SourceFile.mergeLines
  induction other.entries generalizing f with
  | nil => exact h
  | cons e rest ih =>
    apply ih
    show Faithful (if f.ignores e.1 then f else f.appendLine e.1 e.2 joined)
    split
    · exact h
    · exact Faithful.edit _

theorem Faithful.shift (h : f.Faithful) (hunks : List Hunk) (direction : Direction) :
    (f.shift hunks direction).2.Faithful := by
  unfold SourceFile.shift
  split
  · exact Faithful.edit _
  · exact h

theorem Faithful.withoutSessions (h : f.Faithful) (ids : List Nat) :
    (f.withoutSessions ids).Faithful := by
  unfold SourceFile.withoutSessions
  split
  · exact Faithful.edit _
  · exact h.afterSessionIds

/-- A file as taking out some labels leaves it: untouched in its lines when none of the sessions is
in it by its own account. -/
def withoutLabels (ids labels : List Nat) (f : SourceFile) : SourceFile :=
  if f.hasAnySession ids then f.afterSessionIds.deleteLabels ids labels else f.afterSessionIds

theorem Faithful.changeSessionId (h : f.Faithful) (old new : Nat) :
    (f.changeSessionId old new).Faithful := by
  unfold SourceFile.changeSessionId
  split
  · exact Faithful.edit _
  · exact h.afterSessionIds

@[simp] theorem ignore_afterSessionIds : f.afterSessionIds.ignore = f.ignore := by
  unfold SourceFile.afterSessionIds
  split
  · split <;> rfl
  · rfl

@[simp] theorem lines_afterLines (numbers : List Nat) :
    (f.afterLines numbers).lines = f.lines := by
  unfold SourceFile.afterLines
  split <;> rfl

@[simp] theorem ignore_afterLines (numbers : List Nat) :
    (f.afterLines numbers).ignore = f.ignore := by
  unfold SourceFile.afterLines
  split <;> rfl

end SourceFile

/-! ## 3. Calls and their answers -/

/-- One call to a file. -/
inductive FileCall where
  | get (n : Nat)
  | lines
  | size
  | isEmpty
  | eof
  | totals
  | sessionIds
  | addedTotals (hunks : List Hunk)
  | encode
  | append (n : Nat) (line : Line) (joined : Bool)
  | set (n : Nat) (line : Line)
  | remove (n : Nat)
  | merge (other : SourceFile) (joined : Bool)
  | ignoreLines (numbers : List Nat) (eof : Option Nat)
  | shift (hunks : List Hunk) (direction : Direction)
  | deleteSessions (ids : List Nat)
  | deleteLabels (ids labels : List Nat)
  | changeSessionId (old new : Nat)

/-- What a call gives back.  A chunk counts as what is read of it: its lines and its sessions. -/
inductive FileAnswer where
  | fault (e : Error)
  | nothing
  | truth (b : Bool)
  | number (n : Nat)
  | line (l : Option Line)
  | lines (entries : List (Nat × Line))
  | totals (t : Totals)
  | ids (ids : List Nat)
  | chunk (lines : Table Nat Line) (ids : List Nat)

/-- What is read of the text of a chunk. -/
def FileAnswer.ofChunk (text : String) : FileAnswer :=
  let f : SourceFile := { name := "", content := .text text }
  .chunk f.lines f.sessionIds

theorem FileAnswer.ofChunk_eq (text : String) :
    ofChunk text = .chunk (Chunk.lines text)
      ((Chunk.headerIds? text).getD (SourceFile.idsOfLines (Chunk.lines text))) := rfl

/-- The answers to calls that are made one after the other. -/
def answers {σ : Type} (call : σ → FileCall → FileAnswer × σ) : σ → List FileCall → List FileAnswer
  | _, [] => []
  | s, c :: rest => (call s c).1 :: answers call (call s c).2 rest

/-- A file together with the totals that it gave, which it keeps until its lines change. -/
structure KeptFile where
  file : SourceFile
  totals : Option Totals := none

namespace KeptFile

/-- The file after a call, which may have changed its lines. -/
def after (f : KeptFile) (file : SourceFile) (changed : Bool) : KeptFile :=
  { file, totals := if changed then none else f.totals }

def get (f : KeptFile) (n : Nat) : FileAnswer × KeptFile :=
  match f.file.get? n with
  | .ok l => (.line l, f.after f.file.opened false)
  | .error e => (.fault e, f)

def askTotals (f : KeptFile) : FileAnswer × KeptFile :=
  match f.totals with
  | some t => (.totals t, f)
  | none => (.totals f.file.totals, { file := f.file.opened, totals := some f.file.totals })

def append (f : KeptFile) (n : Nat) (line : Line) (joined : Bool) : FileAnswer × KeptFile :=
  match f.file.append n line joined with
  | .ok (written, file) => (.truth written, f.after file written)
  | .error e => (.fault e, f)

def set (f : KeptFile) (n : Nat) (line : Line) : FileAnswer × KeptFile :=
  match f.file.set n line with
  | .ok file => (.nothing, f.after file !f.file.ignores n)
  | .error e => (.fault e, f)

def remove (f : KeptFile) (n : Nat) : FileAnswer × KeptFile :=
  match f.file.remove n with
  | .ok (l, file) => (.line l, f.after file l.isSome)
  | .error e => (.fault e, f)

def merge (f : KeptFile) (other : SourceFile) (joined : Bool) : FileAnswer × KeptFile :=
  let (written, file) := f.file.merge other joined
  -- a file that refuses every line is left as it is
  (.truth written, f.after file !other.lines.entries.all fun e => f.file.ignores e.1)

def shift (f : KeptFile) (hunks : List Hunk) (direction : Direction) : FileAnswer × KeptFile :=
  let (shifted, file) := f.file.shift hunks direction
  (.truth shifted, f.after file shifted)

def call (f : KeptFile) : FileCall → FileAnswer × KeptFile
  | .get n => f.get n
  | .lines => (.lines f.file.lines.entries, f.after f.file.opened false)
  | .size => (.number f.file.size, f.after f.file.opened false)
  | .isEmpty => (.truth f.file.isEmpty, f.after f.file.opened false)
  | .eof => (.number f.file.eof, f.after f.file.opened false)
  | .totals => f.askTotals
  | .sessionIds => (.ids f.file.sessionIds, f.after f.file.afterSessionIds false)
  | .addedTotals hunks =>
    (.totals (f.file.addedTotals hunks),
      f.after (f.file.afterLines (hunks.flatMap Hunk.addedLines)) false)
  | .encode => (.ofChunk f.file.encode, f)
  | .append n line joined => f.append n line joined
  | .set n line => f.set n line
  | .remove n => f.remove n
  | .merge other joined => f.merge other joined
  | .ignoreLines numbers eof => (.nothing, f.after (f.file.ignoreLines numbers eof) true)
  | .shift hunks direction => f.shift hunks direction
  | .deleteSessions ids =>
    (.nothing, f.after (f.file.withoutSessions ids) (f.file.hasAnySession ids))
  | .deleteLabels ids labels =>
    (.nothing, f.after (f.file.withoutLabels ids labels) (f.file.hasAnySession ids))
  | .changeSessionId old new =>
    (.nothing, f.after (f.file.changeSessionId old new) (f.file.sessionIds.contains old))

/-- Whenever a chunk is copied in the course of some calls, its lines not having been read until then,
what is written of them is read back. -/
def CopiesReadBack (f : KeptFile) : List FileCall → Prop
  | [] => True
  | c :: rest =>
    (c = .encode → ∀ chunk, f.file.content = .text chunk → Chunk.ReadsBack chunk) ∧
      (f.call c).2.CopiesReadBack rest

end KeptFile

/-! ## 4. Files that keep nothing -/

/-- A file as its lines by number and the lines it refuses. -/
structure PlainFile where
  lines : Table Nat Line
  ignore : Option IgnoreRule := none

namespace PlainFile

def ignores (p : PlainFile) (n : Nat) : Bool := p.ignore.elim false fun rule => rule.covers n

def sessionIds (p : PlainFile) : List Nat := SourceFile.idsOfLines p.lines

/-- Put a line under a number, joined with the line that is there. -/
def join (p : PlainFile) (n : Nat) (line : Line) (joined : Bool) : PlainFile :=
  { p with lines := p.lines.insert n ((p.lines.get? n).elim line fun own => own.merge line joined) }

/-- Put some lines under their numbers, but for those that are refused. -/
def joinAll (p : PlainFile) (joined : Bool) : List (Nat × Line) → PlainFile
  | [] => p
  | (n, line) :: rest => (if p.ignores n then p else p.join n line joined).joinAll joined rest

/-- Change the lines when there is a reason to. -/
def editIf (p : PlainFile) (reason : Bool) (change : Table Nat Line → Table Nat Line) : PlainFile :=
  if reason then { p with lines := change p.lines } else p

def get (p : PlainFile) (n : Nat) : FileAnswer :=
  if n = 0 then .fault (.lineNumber n) else .line (p.lines.get? n)

def append (p : PlainFile) (n : Nat) (line : Line) (joined : Bool) : FileAnswer × PlainFile :=
  if n = 0 then (.fault (.lineNumber n), p)
  else if p.ignores n then (.truth false, p)
  else (.truth true, p.join n line joined)

def set (p : PlainFile) (n : Nat) (line : Line) : FileAnswer × PlainFile :=
  if n = 0 then (.fault (.lineNumber n), p)
  else (.nothing, p.editIf (!p.ignores n) fun table => table.insert n line)

def remove (p : PlainFile) (n : Nat) : FileAnswer × PlainFile :=
  if n = 0 then (.fault (.lineNumber n), p)
  else (.line (p.lines.get? n), { p with lines := p.lines.erase n })

def ignoreLines (p : PlainFile) (numbers : List Nat) (eof : Option Nat) : PlainFile :=
  let rule : IgnoreRule := { eof, lines := ascend numbers }
  { lines := p.lines.filter fun n _ => !rule.covers n, ignore := some rule }

def shift (p : PlainFile) (hunks : List Hunk) (direction : Direction) : FileAnswer × PlainFile :=
  match ShiftPlan.build? direction hunks with
  | .ok plan => (.truth true, { p with lines := SourceFile.shiftLines plan p.lines })
  | .error _ => (.truth false, p)

def call (p : PlainFile) : FileCall → FileAnswer × PlainFile
  | .get n => (p.get n, p)
  | .lines => (.lines p.lines.entries, p)
  | .size => (.number p.lines.entries.length, p)
  | .isEmpty => (.truth p.lines.entries.isEmpty, p)
  | .eof => (.number ((p.lines.entries.getLast?.elim 0 Prod.fst) + 1), p)
  | .totals => (.totals (.ofLines p.lines.values), p)
  | .sessionIds => (.ids p.sessionIds, p)
  | .addedTotals hunks =>
    (.totals (.ofLines ((hunks.flatMap Hunk.addedLines).filterMap p.lines.get?)), p)
  | .encode => (.ofChunk (Chunk.encode p.sessionIds p.lines), p)
  | .append n line joined => p.append n line joined
  | .set n line => p.set n line
  | .remove n => p.remove n
  | .merge other joined => (.truth !other.lines.isEmpty, p.joinAll joined other.lines.entries)
  | .ignoreLines numbers eof => (.nothing, p.ignoreLines numbers eof)
  | .shift hunks direction => p.shift hunks direction
  | .deleteSessions ids =>
    (.nothing, p.editIf (p.sessionIds.any ids.contains) fun table =>
      table.filterMap fun _ l => l.withoutSessions ids)
  | .deleteLabels ids labels =>
    (.nothing, p.editIf (p.sessionIds.any ids.contains) fun table =>
      table.filterMap fun _ l => l.withoutLabels ids labels)
  | .changeSessionId old new =>
    (.nothing, p.editIf (p.sessionIds.contains old) fun table =>
      table.map fun _ l => l.withSessionId old new)

end PlainFile

/-! ## 5. One call -/

/-- A file shows the lines and refuses the lines of a plain one, and what it keeps is right. -/
structure KeptFile.Shows (f : KeptFile) (p : PlainFile) : Prop where
  lines : f.file.lines = p.lines
  ignore : f.file.ignore = p.ignore
  faithful : f.file.Faithful
  totals : ∀ t, f.totals = some t → t = .ofLines p.lines.values

/-- The same answer, and files that show the same afterwards. -/
structure Alike (a : FileAnswer × KeptFile) (b : FileAnswer × PlainFile) : Prop where
  answer : a.1 = b.1
  shows : a.2.Shows b.2

namespace KeptFile.Shows

open SourceFile

variable {f : KeptFile} {p : PlainFile} {file : SourceFile}

theorem ignores (h : f.Shows p) (n : Nat) : f.file.ignores n = p.ignores n := by
  unfold SourceFile.ignores PlainFile.ignores
  rw [h.ignore]
  cases p.ignore <;> rfl

theorem sessionIds (h : f.Shows p) : f.file.sessionIds = p.sessionIds := by
  rw [h.faithful.exact, h.lines]
  rfl

theorem hasAnySession (h : f.Shows p) (ids : List Nat) :
    f.file.hasAnySession ids = p.sessionIds.any ids.contains := by
  rw [SourceFile.hasAnySession, h.sessionIds]

/-- Reading a file leaves what it shows. -/
theorem read (h : f.Shows p) (hlines : file.lines = f.file.lines)
    (hignore : file.ignore = f.file.ignore) (hfaithful : file.Faithful) :
    (f.after file false).Shows p :=
  ⟨hlines.trans h.lines, hignore.trans h.ignore, hfaithful, h.totals⟩

theorem opened (h : f.Shows p) : (f.after f.file.opened false).Shows p :=
  h.read rfl rfl h.faithful.opened

theorem afterSessionIds (h : f.Shows p) : (f.after f.file.afterSessionIds false).Shows p :=
  h.read lines_afterSessionIds ignore_afterSessionIds h.faithful.afterSessionIds

/-- After a change the totals are forgotten, and only the lines matter. -/
theorem changed (hlines : file.lines = p.lines) (hignore : file.ignore = p.ignore)
    (hfaithful : file.Faithful) : (f.after file true).Shows p :=
  ⟨hlines, hignore, hfaithful, fun _ ht => by cases ht⟩

theorem edit (h : f.Shows p) (change : Table Nat Line → Table Nat Line) :
    (f.after (f.file.edit change) true).Shows { p with lines := change p.lines } :=
  changed (by rw [lines_edit, h.lines]) h.ignore (Faithful.edit _)

/-- An edit that is made only for a reason, the ids being asked for before. -/
theorem editIf (h : f.Shows p) {reason : Bool} {change : Table Nat Line → Table Nat Line}
    (hchanged : reason = true → ∃ own : SourceFile,
      own.lines = f.file.lines ∧ own.ignore = f.file.ignore ∧ file = own.edit change)
    (hkept : reason = false → file = f.file.afterSessionIds) :
    (f.after file reason).Shows (p.editIf reason change) := by
  cases reason with
  | true =>
    obtain ⟨own, hlines, hignore, rfl⟩ := hchanged rfl
    refine changed ?_ (hignore.trans h.ignore) (Faithful.edit _)
    rw [lines_edit, hlines, h.lines]
    rfl
  | false =>
    rw [hkept rfl]
    exact h.afterSessionIds

/-! ### Single lines -/

theorem get (h : f.Shows p) (n : Nat) : Alike (f.get n) (p.get n, p) := by
  unfold KeptFile.get PlainFile.get SourceFile.get? line?
  rw [h.lines]
  by_cases hn : n = 0
  · simp only [if_pos hn]
    exact ⟨rfl, h⟩
  · simp only [if_neg hn]
    exact ⟨rfl, h.opened⟩

theorem appendLine (h : f.Shows p) (n : Nat) (line : Line) (joined : Bool) :
    (f.after (f.file.appendLine n line joined) true).Shows (p.join n line joined) := by
  refine changed ?_ h.ignore (Faithful.edit _)
  show Table.insert f.file.lines n _ = Table.insert p.lines n _
  rw [h.lines]
  cases p.lines.get? n <;> rfl

theorem append (h : f.Shows p) (n : Nat) (line : Line) (joined : Bool) :
    Alike (f.append n line joined) (p.append n line joined) := by
  unfold KeptFile.append PlainFile.append SourceFile.append
  rw [h.ignores n]
  by_cases hn : n = 0
  · simp only [if_pos hn]
    exact ⟨rfl, h⟩
  · simp only [if_neg hn]
    cases p.ignores n with
    | true => exact ⟨rfl, h⟩
    | false => exact ⟨rfl, h.appendLine n line joined⟩

theorem set (h : f.Shows p) (n : Nat) (line : Line) : Alike (f.set n line) (p.set n line) := by
  unfold KeptFile.set PlainFile.set SourceFile.set
  rw [h.ignores n]
  by_cases hn : n = 0
  · simp only [if_pos hn]
    exact ⟨rfl, h⟩
  · simp only [if_neg hn]
    cases p.ignores n with
    | true => exact ⟨rfl, h⟩
    | false => exact ⟨rfl, h.edit _⟩

theorem remove (h : f.Shows p) (n : Nat) : Alike (f.remove n) (p.remove n) := by
  unfold KeptFile.remove PlainFile.remove SourceFile.remove line?
  rw [h.lines]
  by_cases hn : n = 0
  · simp only [if_pos hn]
    exact ⟨rfl, h⟩
  · simp only [if_neg hn]
    cases hl : p.lines.get? n with
    | some l => exact ⟨rfl, h.edit _⟩
    | none =>
      -- there is nothing to take out
      have herase : p.lines.erase n = p.lines := by
        refine Table.ext_get? fun k => ?_
        rw [Table.get?_erase]
        split
        · rename_i hk
          rw [hk, hl]
        · rfl
      rw [herase]
      exact ⟨rfl, h.opened⟩

/-! ### All lines -/

/-- The totals are forgotten with the first line that is taken. -/
theorem mergeLines (h : f.Shows p) (joined : Bool) (entries : List (Nat × Line)) :
    (f.after
      (entries.foldl (fun own (n, line) =>
        if own.ignores n then own else own.appendLine n line joined) f.file)
      (!entries.all fun e => f.file.ignores e.1)).Shows (p.joinAll joined entries) := by
  induction entries generalizing f p with
  | nil => exact h
  | cons e rest ih =>
    obtain ⟨n, line⟩ := e
    rw [List.foldl_cons, List.all_cons, PlainFile.joinAll, ← h.ignores n]
    dsimp only
    cases f.file.ignores n with
    | true => exact ih h
    | false =>
      have hrest := ih (h.appendLine n line joined)
      exact ⟨hrest.lines, hrest.ignore, hrest.faithful, fun _ ht => by cases ht⟩

theorem merge (h : f.Shows p) (other : SourceFile) (joined : Bool) :
    Alike (f.merge other joined)
      (.truth !other.lines.isEmpty, p.joinAll joined other.lines.entries) := by
  have hlines := h.mergeLines joined other.lines.entries
  unfold KeptFile.merge SourceFile.merge
  cases hempty : other.isEmpty with
  | true =>
    have hnil : other.lines.entries = [] := List.isEmpty_iff.1 hempty
    rw [hnil] at hlines ⊢
    exact ⟨by rw [show other.lines.isEmpty = true from hempty]; rfl, hlines⟩
  | false => exact ⟨by rw [show other.lines.isEmpty = false from hempty]; rfl, hlines⟩

theorem ignoreLines (h : f.Shows p) (numbers : List Nat) (eof : Option Nat) :
    (f.after (f.file.ignoreLines numbers eof) true).Shows (p.ignoreLines numbers eof) := by
  refine changed ?_ rfl ((Faithful.edit _).withIgnore _)
  have hlines : (f.file.ignoreLines numbers eof).lines = f.file.lines.filter fun n _ =>
      !IgnoreRule.covers { eof, lines := ascend numbers } n := rfl
  rw [hlines, h.lines]
  rfl

theorem shift (h : f.Shows p) (hunks : List Hunk) (direction : Direction) :
    Alike (f.shift hunks direction) (p.shift hunks direction) := by
  unfold KeptFile.shift PlainFile.shift SourceFile.shift
  cases ShiftPlan.build? direction hunks with
  | ok plan => exact ⟨rfl, h.edit _⟩
  | error e => exact ⟨rfl, h⟩

theorem deleteSessions (h : f.Shows p) (ids : List Nat) :
    (f.after (f.file.withoutSessions ids) (f.file.hasAnySession ids)).Shows
      (p.editIf (p.sessionIds.any ids.contains) fun table =>
        table.filterMap fun _ l => l.withoutSessions ids) := by
  rw [← h.hasAnySession]
  apply h.editIf
  · intro hany
    exact ⟨f.file.afterSessionIds, lines_afterSessionIds, ignore_afterSessionIds,
      withoutSessions_of_has hany⟩
  · exact withoutSessions_of_not_has

theorem deleteLabels (h : f.Shows p) (ids labels : List Nat) :
    (f.after (f.file.withoutLabels ids labels) (f.file.hasAnySession ids)).Shows
      (p.editIf (p.sessionIds.any ids.contains) fun table =>
        table.filterMap fun _ l => l.withoutLabels ids labels) := by
  rw [← h.hasAnySession]
  apply h.editIf
  · intro hany
    exact ⟨f.file.afterSessionIds, lines_afterSessionIds, ignore_afterSessionIds, if_pos hany⟩
  · intro hany
    exact if_neg (by simp [hany])

theorem changeSessionId (h : f.Shows p) (old new : Nat) :
    (f.after (f.file.changeSessionId old new) (f.file.sessionIds.contains old)).Shows
      (p.editIf (p.sessionIds.contains old) fun table =>
        table.map fun _ l => l.withSessionId old new) := by
  rw [← h.sessionIds]
  apply h.editIf
  · intro hold
    exact ⟨f.file, rfl, rfl, if_pos hold⟩
  · intro hold
    exact if_neg (by rw [hold]; exact Bool.false_ne_true)

theorem askTotals (h : f.Shows p) : Alike f.askTotals (.totals (.ofLines p.lines.values), p) := by
  unfold KeptFile.askTotals
  cases ht : f.totals with
  | some t => exact ⟨congrArg FileAnswer.totals (h.totals t ht), h⟩
  | none =>
    have htotals : f.file.totals = .ofLines p.lines.values := by
      rw [SourceFile.totals, h.lines]
    refine ⟨congrArg FileAnswer.totals htotals, h.lines, h.ignore, h.faithful.opened, ?_⟩
    intro t ht
    rw [← Option.some.inj ht]
    exact htotals

/-- A chunk that is copied shows what a chunk that is written anew does. -/
theorem encode (h : f.Shows p)
    (hread : ∀ chunk, f.file.content = .text chunk → Chunk.ReadsBack chunk) :
    FileAnswer.ofChunk f.file.encode = .ofChunk (Chunk.encode p.sessionIds p.lines) := by
  cases hcontent : f.file.content with
  | lines table =>
    have hparsed : f.file.isParsed = true := by
      rw [isParsed, hcontent]
    rw [Report.encode_of_parsed hparsed, h.lines, h.sessionIds]
  | text chunk =>
    have hcopy : f.file.encode = chunk := by
      rw [SourceFile.encode, hcontent]
    have hchunk : Chunk.lines chunk = p.lines := by
      rw [← h.lines, SourceFile.lines, hcontent]
    have hids : p.sessionIds = idsOfLines (Chunk.lines chunk) := by
      rw [PlainFile.sessionIds, hchunk]
    have hheader : (Chunk.headerIds? chunk).getD (idsOfLines (Chunk.lines chunk)) =
        idsOfLines (Chunk.lines chunk) := by
      cases hown : Chunk.headerIds? chunk with
      | none => rfl
      | some ids =>
        rw [Option.getD_some, h.faithful.header chunk ids hcontent hown, h.lines, hchunk]
    rw [hcopy, hids, ← hchunk, FileAnswer.ofChunk_eq, FileAnswer.ofChunk_eq, hheader,
      (hread chunk hcontent).lines_encode, Chunk.headerIds?_encode_lines, Option.getD_some]

/-! ### Any call -/

/-- **No call tells a file from the plain one that it shows**, and it goes on showing it. -/
theorem call (h : f.Shows p) (c : FileCall)
    (hread : c = .encode → ∀ chunk, f.file.content = .text chunk → Chunk.ReadsBack chunk) :
    Alike (f.call c) (p.call c) := by
  cases c with
  | get n => exact h.get n
  | lines =>
    refine ⟨?_, h.opened⟩
    show FileAnswer.lines f.file.lines.entries = .lines p.lines.entries
    rw [h.lines]
  | size =>
    refine ⟨?_, h.opened⟩
    show FileAnswer.number f.file.size = .number p.lines.size
    rw [SourceFile.size, h.lines]
  | isEmpty =>
    refine ⟨?_, h.opened⟩
    show FileAnswer.truth f.file.isEmpty = .truth p.lines.isEmpty
    rw [SourceFile.isEmpty, h.lines]
  | eof =>
    refine ⟨?_, h.opened⟩
    show FileAnswer.number (f.file.eof) = .number ((p.lines.entries.getLast?.elim 0 Prod.fst) + 1)
    rw [SourceFile.eof, h.lines, Table.last?]
    cases p.lines.entries.getLast? <;> rfl
  | totals => exact h.askTotals
  | sessionIds => exact ⟨congrArg FileAnswer.ids h.sessionIds, h.afterSessionIds⟩
  | addedTotals hunks =>
    refine ⟨?_, h.read (lines_afterLines _) (ignore_afterLines _) (h.faithful.afterLines _)⟩
    show FileAnswer.totals (f.file.addedTotals hunks) = .totals
      (.ofLines ((hunks.flatMap Hunk.addedLines).filterMap p.lines.get?))
    unfold SourceFile.addedTotals line?
    rw [h.lines]
  | encode => exact ⟨h.encode (hread rfl), h⟩
  | append n line joined => exact h.append n line joined
  | set n line => exact h.set n line
  | remove n => exact h.remove n
  | merge other joined => exact h.merge other joined
  | ignoreLines numbers eof => exact ⟨rfl, h.ignoreLines numbers eof⟩
  | shift hunks direction => exact h.shift hunks direction
  | deleteSessions ids => exact ⟨rfl, h.deleteSessions ids⟩
  | deleteLabels ids labels => exact ⟨rfl, h.deleteLabels ids labels⟩
  | changeSessionId old new => exact ⟨rfl, h.changeSessionId old new⟩

end KeptFile.Shows

/-! ## 6. Calls one after the other -/

theorem KeptFile.Shows.answers_eq {f : KeptFile} {p : PlainFile} (h : f.Shows p)
    (calls : List FileCall) (hread : f.CopiesReadBack calls) :
    answers KeptFile.call f calls = answers PlainFile.call p calls := by
  induction calls generalizing f p with
  | nil => rfl
  | cons c rest ih =>
    obtain ⟨hanswer, hshows⟩ := h.call c hread.1
    unfold answers
    rw [hanswer, ih hshows hread.2]

/-- **It does not show that lines are unread.**  A file of a chunk whose header is absent, cannot be
read or is right gives the answers of a file with the same lines that keeps nothing, whatever is
asked of it and changed in it.  Only where the chunk is copied have its readings to be finite and the
JSON of its lines to be read back from its text. -/
theorem answers_unread {chunk : String}
    (hheader : ∀ ids, Chunk.headerIds? chunk = some ids →
      ids = SourceFile.idsOfLines (Chunk.lines chunk))
    (name : String) (calls : List FileCall)
    (hread : KeptFile.CopiesReadBack { file := { name, content := .text chunk } } calls) :
    answers KeptFile.call { file := { name, content := .text chunk } } calls =
      answers PlainFile.call { lines := Chunk.lines chunk } calls := by
  apply KeptFile.Shows.answers_eq _ calls hread
  exact ⟨rfl, rfl, SourceFile.Faithful.ofChunk hheader, fun _ ht => by cases ht⟩

/-- Whether a line is just that of one session can be decided: messages are compared with none. -/
instance Line.decidableEqOfSession (l : Line) (s : LineSession) : Decidable (l = .ofSession s) :=
  decidable_of_iff
    (l.reading = s.reading ∧ l.kind = none ∧ l.sessions = [s] ∧ l.messages = none ∧
      l.complexity = s.complexity ∧ l.datapoints = none) (by
    rw [ofSession, Line.mk.injEq])

/-- The text of a chunk with one line, an empty row and a row that is no line. -/
def shownChunk : String :=
  "\x7b\"present_sessions\":[0]\x7d\n[1,null,[[0,1]],null,null,null]\n\nrow\n"

def shownCalls : List FileCall :=
  [.encode, .sessionIds, .append 2 (.ofSession { id := 1, reading := .miss }) true, .totals,
    .deleteSessions [0], .eof]

theorem readsBack_shownChunk : Chunk.ReadsBack shownChunk := by
  have hentries : ∀ e ∈ (Chunk.lines shownChunk).entries,
      e.2 = .ofSession { id := 0, reading := .hit .one } := by
    decide +kernel
  have hsession : LineSession.Fits { id := 0, reading := .hit .one } := by
    refine ⟨by decide, ⟨by decide, by decide⟩, ?_, ?_, ?_⟩ <;> (intro _ h; cases h)
  intro n l hl
  obtain rfl : l = _ := hentries (n, l) ((Chunk.lines shownChunk).get?_eq_some_iff.1 hl)
  refine ⟨⟨rfl, List.forall_mem_singleton.2 rfl, nofun⟩, Line.Fits.jsonReadsBack ?_ ?_⟩
  · exact ⟨hsession.reading, List.forall_mem_singleton.2 hsession, nofun, nofun, nofun⟩
  · decide +kernel

/-- A file of session 0 is copied; then session 1 adds a line and session 0 is taken out. -/
theorem answers_unread_shownCalls :
    (∀ ids, Chunk.headerIds? shownChunk = some ids →
      ids = SourceFile.idsOfLines (Chunk.lines shownChunk)) ∧
    KeptFile.CopiesReadBack { file := { name := "a", content := .text shownChunk } } shownCalls ∧
    answers KeptFile.call { file := { name := "a", content := .text shownChunk } } shownCalls =
      answers PlainFile.call { lines := Chunk.lines shownChunk } shownCalls := by
  have hheader : ∀ ids, Chunk.headerIds? shownChunk = some ids →
      ids = SourceFile.idsOfLines (Chunk.lines shownChunk) := by
    have hids : Chunk.headerIds? shownChunk = some [0] := by decide +kernel
    have hlines : SourceFile.idsOfLines (Chunk.lines shownChunk) = [0] := by decide +kernel
    intro ids h
    rw [hlines]
    exact Option.some.inj (h.symm.trans hids)
  have hread : KeptFile.CopiesReadBack { file := { name := "a", content := .text shownChunk } }
      shownCalls := by
    refine ⟨fun _ chunk hchunk => ?_, nofun, nofun, nofun, nofun, nofun, trivial⟩
    rw [← Content.text.inj hchunk]
    exact readsBack_shownChunk
  exact ⟨hheader, hread, answers_unread hheader "a" shownCalls hread⟩

end CoverageLedger
