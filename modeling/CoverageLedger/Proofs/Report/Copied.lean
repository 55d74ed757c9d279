import CoverageLedger.Proofs.Report.Sound
import CoverageLedger.Report.Archive
import CoverageLedger.Proofs.Text.Pieces

/-!
# Archives that are copied

An archive without a header is its chunks with separators between them, and a chunk that was not
read is written as it was.  So a report that was only glanced at (`Glanced`) gives its archive back,
whatever stands in the chunks, and a file that is added stands after all of it.
-/

namespace CoverageLedger.Report

open Text

variable {r s : Report} {m : Manifest} {text : String} {name : String} {f : SourceFile}

/-! ## 1. Archives without a header -/

/-- The second row is not the one that ends a header, whatever returns stand after it. -/
def Headless (text : String) : Prop :=
  ∀ returns : Nat,
    (splitAt '\n' text.toList)[1]? ≠ some (endOfHeader.toList ++ List.replicate returns '\r')

/-- A chunk of null with blanks around it has none. -/
def NullsBare (text : String) : Prop :=
  ∀ chunk ∈ splitText chunkSeparator.toList text.toList,
    trim chunk = emptyChunk.toList → chunk = emptyChunk.toList

/-- A row that is a marker with returns after it is none of a text without a header. -/
theorem Headless.ne_marker (h : Headless text) {row : List Char}
    (hrow : (splitAt '\n' text.toList)[1]? = some row) :
    dropLastWhile (· == '\r') row ≠ endOfHeader.toList := by
  intro hmarker
  obtain ⟨dropped, heq, hreturns⟩ := exists_eq_dropLastWhile_append (· == '\r') row
  have hreplicate : dropped = List.replicate dropped.length '\r' :=
    List.eq_replicate_of_mem fun c hc => by simpa using hreturns c hc
  apply h dropped.length
  rw [hrow, ← hreplicate, ← hmarker, ← heq]

theorem splitHeader_of_headless (h : Headless text) :
    splitHeader text.toList = (none, text.toList) := by
  have hrows := splitAt_eq_splitOnce '\n' text.toList
  rw [splitHeader, splitFirst]
  cases hfirst : splitOnce '\n' text.toList with
  | none => rfl
  | some pair =>
    obtain ⟨first, rest⟩ := pair
    rw [hfirst] at hrows
    dsimp only at hrows ⊢
    have hnext := splitAt_eq_splitOnce '\n' rest
    rw [splitFirst]
    cases hsecond : splitOnce '\n' rest with
    | none =>
      rw [hsecond] at hnext
      rw [hnext] at hrows
      dsimp only
      rw [if_neg (h.ne_marker (by rw [hrows]; rfl))]
    | some pair =>
      obtain ⟨second, others⟩ := pair
      rw [hsecond] at hnext
      rw [hnext] at hrows
      dsimp only
      rw [if_neg (h.ne_marker (by rw [hrows]; rfl))]

/-- The chunks of an archive without a header; an empty text has none. -/
def chunksOf (text : String) : List (List Char) :=
  if text = "" then [] else splitText chunkSeparator.toList text.toList

theorem slots_ofArchive (h : Headless text) (m : Manifest) :
    (ofArchive text m).slots = (chunksOf text).mapIdx (slotOfChunk m) := by
  rw [ofArchive, splitHeader_of_headless h, chunksOf]
  simp only [List.isEmpty_iff, String.toList_eq_nil_iff]

theorem slotText_slotOfChunk (slot : Nat) {chunk : List Char}
    (h : trim chunk = emptyChunk.toList → chunk = emptyChunk.toList) :
    slotText (slotOfChunk m slot chunk) = String.ofList chunk := by
  rw [slotOfChunk]
  split
  · rename_i hnull
    rw [h hnull, String.ofList_toList]
    rfl
  · rfl

/-! ## 2. Reports with the chunks of an archive -/

/-- The slots of a report write the chunks of an archive, and the manifest is the one it came with. -/
structure Copies (text : String) (m : Manifest) (r : Report) : Prop where
  chunks : r.slots.map slotText = (chunksOf text).map String.ofList
  files : r.files = m.files

theorem copies_ofArchive (hheader : Headless text) (hnulls : NullsBare text) (m : Manifest) :
    Copies text m (ofArchive text m) where
  chunks := by
    have hchunk : ∀ chunk ∈ chunksOf text,
        trim chunk = emptyChunk.toList → chunk = emptyChunk.toList := by
      intro chunk hmem
      rw [chunksOf] at hmem
      split at hmem
      · cases hmem
      · exact hnulls chunk hmem
    rw [slots_ofArchive hheader]
    apply List.ext_getElem?
    intro i
    rw [List.getElem?_map, List.getElem?_mapIdx, List.getElem?_map]
    cases hi : (chunksOf text)[i]? with
    | none => rfl
    | some chunk =>
      exact congrArg some (slotText_slotOfChunk i (hchunk chunk (List.mem_of_getElem? hi)))
  files := rfl

/-- The chunks with separators between them are the archive. -/
theorem Copies.body_eq (h : Copies text m r) : r.body = text := by
  rw [body, h.chunks, chunksOf]
  split
  · rename_i hempty
    rw [hempty]
    rfl
  · apply String.toList_injective
    rw [String.toList_intercalate, List.map_map]
    have hid : (splitText chunkSeparator.toList text.toList).map (String.toList ∘ String.ofList) =
        splitText chunkSeparator.toList text.toList := by
      rw [show String.toList ∘ String.ofList = id from funext fun _ => String.toList_ofList,
        List.map_id]
    rw [hid]
    exact intercalate_splitText (by decide) _

/-! ## 3. Reading without opening a chunk -/

/-- The report was only read where nothing of a chunk but its header is needed: its totals, the totals
of a file, which leave the report as it is, and the session ids of files whose headers declare
them. -/
inductive Glanced (r : Report) : Report → Prop
  | start : Glanced r r
  | totals {s : Report} (h : Glanced r s) : Glanced r s.totals.2
  | fileTotals {s : Report} (h : Glanced r s) (name : String) : Glanced r s
  | sessionIds {s : Report} (h : Glanced r s) {name chunk : String} {f : SourceFile} {ids : List Nat}
      (hf : s.file? name = some f) (hchunk : f.content = .text chunk)
      (hids : Chunk.headerIds? chunk = some ids) :
      Glanced r (s.afterReading name SourceFile.afterSessionIds)

/-- Ids that a header declares are found without opening the chunk. -/
theorem encode_afterSessionIds {chunk : String} {ids : List Nat} (hchunk : f.content = .text chunk)
    (hids : Chunk.headerIds? chunk = some ids) : f.afterSessionIds.encode = f.encode := by
  rw [SourceFile.afterSessionIds]
  split
  · rename_i own _ hown
    rw [hchunk] at hown
    obtain rfl := Content.text.inj hown
    rw [hids]
    dsimp only
    rw [SourceFile.encode, SourceFile.encode, hchunk]
  · rfl

/-- A file that is written alike may take the place of another. -/
theorem map_slotText_putFile (hf : r.file? name = some f) {g : SourceFile}
    (hg : g.encode = f.encode) :
    (r.putFile name g).slots.map slotText = r.slots.map slotText := by
  obtain ⟨slot, hslot, hin⟩ := file?_eq_some.1 hf
  rw [putFile_of_slotOf? hslot, setSlot]
  dsimp only
  rw [List.map_set]
  apply List.ext_getElem?
  intro i
  rw [List.getElem?_set]
  split
  · rename_i hi
    subst hi
    have hown := inSlot?_eq_some.1 hin
    rw [if_pos (by rw [List.length_map]; exact lt_length_of_inSlot? hin), List.getElem?_map, hown]
    exact congrArg some hg
  · rfl

theorem Copies.glanced (h : Copies text m r) (hreads : Glanced r s) : Copies text m s := by
  induction hreads with
  | start => exact h
  | totals _ ih => exact ⟨ih.chunks, ih.files⟩
  | fileTotals _ _ ih => exact ih
  | sessionIds _ hf hchunk hids ih =>
    rw [afterReading, hf]
    refine ⟨?_, files_putFile.trans ih.files⟩
    exact (map_slotText_putFile hf (encode_afterSessionIds hchunk hids)).trans ih.chunks

/-! ## 4. Adding a file -/

/-- A new file is written after everything else. -/
theorem Copies.body_append (h : Copies text m r) (hne : f.isEmpty = false)
    (hfree : r.slotOf? f.name = none) (joined : Bool) :
    (r.append f joined).2.body =
      (if text = "" then "" else text ++ chunkSeparator) ++ f.opened.encode := by
  have hbody : (r.append f joined).2.body =
      chunkSeparator.intercalate (r.slots.map slotText ++ [f.opened.encode]) := by
    rw [append_of_none hne hfree, body, List.map_append]
    rfl
  rw [hbody]
  split
  · rename_i hempty
    rw [h.chunks, chunksOf, if_pos hempty]
    rfl
  · rename_i hnonempty
    have hchunks : r.slots.map slotText ≠ [] := by
      rw [h.chunks, chunksOf, if_neg hnonempty]
      exact fun hnil => splitText_ne_nil _ _ (List.map_eq_nil_iff.1 hnil)
    have hown : chunkSeparator.toList.intercalate ((r.slots.map slotText).map String.toList) =
        text.toList := by
      rw [← String.toList_intercalate]
      exact congrArg String.toList h.body_eq
    apply String.toList_injective
    rw [String.toList_intercalate, List.map_append, List.map_singleton,
      intercalate_concat _ fun hnil => hchunks (List.map_eq_nil_iff.1 hnil), hown,
      String.toList_append, String.toList_append]

theorem file?_append_of_free (hne : f.isEmpty = false) (hfree : r.slotOf? f.name = none)
    (joined : Bool) : (r.append f joined).2.file? f.name = some f.opened := by
  have hslot : (r.append f joined).2.slotOf? f.name = some r.slots.length := by
    rw [append_of_none hne hfree, slotOf?, Table.get?_insert_self]
    rfl
  rw [file?_of_slotOf? hslot, append_of_none hne hfree, inSlot?_append_new, if_pos rfl]

/-- **An archive is copied, and new files only extend it.**  A report that was loaded from an archive
without a header, and only glanced at since, gives the same text, whatever stands in its chunks and
in the manifest.  A new file adds a separator, unless the text was empty, and its own chunk. -/
theorem archive_copied (hheader : Headless text) (hnulls : NullsBare text)
    (hreads : Glanced (ofArchive text m) r) :
    r.archive false = text ∧
      ∀ (f : SourceFile) (joined : Bool), f.isEmpty = false → m.files.get? f.name = none →
        (r.append f joined).1 = true ∧
        ∃ g, (r.append f joined).2.file? f.name = some g ∧ g.lines = f.lines ∧
          (f.isParsed = true → g = f) ∧
          (r.append f joined).2.archive false =
            (if text = "" then "" else text ++ chunkSeparator) ++ g.encode := by
  have hcopies := (copies_ofArchive hheader hnulls m).glanced hreads
  refine ⟨hcopies.body_eq, fun f joined hne hfree => ?_⟩
  have hslot : r.slotOf? f.name = none := by
    rw [slotOf?, hcopies.files, hfree]
    rfl
  refine ⟨?_, f.opened, file?_append_of_free hne hslot joined, rfl, opened_of_isParsed,
    hcopies.body_append hne hslot joined⟩
  rw [fst_append, hne]
  rfl

/-- A chunk that declares its session. -/
def declaredChunk : String := "\x7b\"present_sessions\":[0]\x7d\n[1,null,[[0,1]]]"

/-- A chunk with a header, an empty slot, an empty chunk and a text that is no chunk. -/
def oddArchive : String :=
  declaredChunk ++ chunkSeparator ++ emptyChunk ++ chunkSeparator ++ chunkSeparator ++ "no chunk"

/-- A manifest with one file. -/
def oddManifest : Manifest := { files := .ofList [("a", { slot := 0 })] }

/-- A file of one line. -/
def addedFile : SourceFile :=
  { name := "b", content := .lines (.ofList [(1, .ofSession { id := 0, reading := .miss })]) }

/-- The archive is there again after the sessions of its file and its totals were asked for, and with
a chunk more after a file was added. -/
theorem archive_copied_oddArchive :
    Headless oddArchive ∧ NullsBare oddArchive ∧ addedFile.isEmpty = false ∧
      ∃ r, Glanced (ofArchive oddArchive oddManifest) r ∧ r.archive false = oddArchive ∧
        (r.append addedFile).2.archive false = oddArchive ++ chunkSeparator ++ addedFile.encode := by
  have hheader : Headless oddArchive := by
    have hrow : (splitAt '\n' oddArchive.toList)[1]? = some "[1,null,[[0,1]]]".toList := by
      decide +kernel
    obtain ⟨marker, hmarker⟩ : ∃ cs, endOfHeader.toList = '<' :: cs := ⟨_, rfl⟩
    intro returns heq
    rw [hrow, hmarker] at heq
    exact absurd (List.cons.inj (Option.some.inj heq)).1 (by decide)
  have hsplit : splitText chunkSeparator.toList oddArchive.toList =
      [declaredChunk.toList, emptyChunk.toList, [], "no chunk".toList] := by
    decide +kernel
  have hnulls : NullsBare oddArchive := by
    unfold NullsBare
    rw [hsplit]
    decide +kernel
  have hfile : (ofArchive oddArchive oddManifest).file? "a" =
      some { name := "a", content := .text declaredChunk } := by
    have hchunk : (chunksOf oddArchive)[0]? = some declaredChunk.toList := by
      rw [chunksOf, if_neg (by decide), hsplit]
      rfl
    have hplain : trim declaredChunk.toList ≠ emptyChunk.toList := by decide +kernel
    have hslot : (ofArchive oddArchive oddManifest).slotOf? "a" = some 0 := by decide +kernel
    have hname : nameOfSlot oddManifest 0 = "a" := by decide +kernel
    rw [file?_of_slotOf? hslot, inSlot?, slots_ofArchive hheader, List.getElem?_mapIdx, hchunk,
      Option.map_some, slotOfChunk, if_neg hplain, hname, String.ofList_toList]
    rfl
  have hids : Chunk.headerIds? declaredChunk = some [0] := by decide +kernel
  have hreads : Glanced (ofArchive oddArchive oddManifest) _ :=
    (Glanced.start.sessionIds hfile rfl hids).totals
  have hfree : oddManifest.files.get? addedFile.name = none := by decide +kernel
  obtain ⟨hcopy, hadded⟩ := archive_copied hheader hnulls hreads
  obtain ⟨-, g, -, -, hsame, hafter⟩ := hadded addedFile true rfl hfree
  rw [hsame rfl] at hafter
  exact ⟨hheader, hnulls, rfl, _, hreads, hcopy, hafter⟩

end CoverageLedger.Report
