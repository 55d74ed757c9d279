import CoverageLedger.Proofs.Report.Consistency
import CoverageLedger.Proofs.Report.Manifest

/-!
# Archives that are read back

A chunk has one row for its header and one for each line number, so that its rows give the lines
back under their numbers.  No row begins like the separator of chunks, whose first character ends a
row, so the separator is found between chunks only.  The number of a slot is the place of its chunk.
-/

namespace CoverageLedger

/-! ## 1. Rows of a chunk -/

namespace Chunk

/-- Lines that have a row of their own and are read back from it. -/
structure Writable (table : Table Nat Line) : Prop where
  numbers : ∀ n l, table.get? n = some l → n ≠ 0
  fits : ∀ n l, table.get? n = some l → l.Fits
  readable : ∀ n l, table.get? n = some l → l.toJson.Readable Json.depthLimit

variable {l : Line} {n : Nat} {rest : List (Option Line)}

theorem toList_text (l : Line) : l.text.toList = l.toJson.chars := by
  rw [Line.text, Json.render, String.toList_ofList]

theorem exists_text_eq_cons (l : Line) : ∃ cs, l.text.toList = '[' :: cs := by
  rw [toList_text]
  exact ⟨_, rfl⟩

/-- The row of a line is neither empty nor null, and nothing is trimmed from it. -/
theorem lineOfRow_eq_ofText? (l : Line) : lineOfRow l.text.toList = Line.ofText? l.text.toList := by
  have htrim : Text.trim l.text.toList = l.text.toList := by
    rw [toList_text]
    exact Json.trim_array _
  obtain ⟨cs, hcs⟩ := exists_text_eq_cons l
  have hplain : ¬ (l.text.toList.isEmpty = true ∨ l.text.toList = "null".toList) := by
    rw [hcs]
    rintro (h | h)
    · cases h
    · exact absurd (List.cons.inj h).1 (by decide)
  rw [lineOfRow, htrim, if_neg hplain]

theorem lineOfRow_text (h : l.Fits) (hread : l.toJson.Readable Json.depthLimit) :
    lineOfRow l.text.toList = some l :=
  (lineOfRow_eq_ofText? l).trans (Line.ofText?_text h hread)

theorem numbered_replicate_none (m : Nat) :
    numbered n (List.replicate m none ++ rest) = numbered (n + m) rest := by
  induction m generalizing n with
  | zero => rfl
  | succ m ih =>
    rw [List.replicate_succ, List.cons_append, numbered, ih]
    congr 1
    omega

/-- Rows from a number on give back, under each number, what is read of the row of its line. -/
theorem numbered_rowsFrom {entries : List (Nat × Line)}
    (hasc : entries.Pairwise fun a b => Precedes a.1 b.1) (hfrom : ∀ e ∈ entries, n ≤ e.1) :
    numbered n (((rowsFrom n entries).map String.toList).map lineOfRow) =
      entries.filterMap fun e => (lineOfRow e.2.text.toList).map (e.1, ·) := by
  induction entries generalizing n with
  | nil => rfl
  | cons e rest ih =>
    obtain ⟨k, l⟩ := e
    obtain ⟨hhead, hrest⟩ := List.pairwise_cons.1 hasc
    have hk : n ≤ k := hfrom (k, l) List.mem_cons_self
    have hnext : ∀ e ∈ rest, k + 1 ≤ e.1 := fun e he => Nat.compare_eq_lt.1 (hhead e he)
    rw [rowsFrom, List.map_append, List.map_append, List.map_replicate, List.map_replicate,
      List.map_cons, List.map_cons, List.filterMap_cons]
    show numbered n (List.replicate (k - n) none ++ _) = _
    rw [numbered_replicate_none, Nat.add_sub_cancel' hk]
    cases lineOfRow l.text.toList with
    | none => exact ih hrest hnext
    | some l' => exact congrArg ((k, l') :: ·) (ih hrest hnext)

theorem mem_rowsFrom {entries : List (Nat × Line)} {row : String} (h : row ∈ rowsFrom n entries) :
    row = "" ∨ ∃ e ∈ entries, row = e.2.text := by
  induction entries generalizing n with
  | nil => cases h
  | cons e rest ih =>
    obtain ⟨k, l⟩ := e
    rw [rowsFrom, List.mem_append, List.mem_cons] at h
    rcases h with h | rfl | h
    · exact .inl (List.mem_replicate.1 h).2
    · exact .inr ⟨(k, l), List.mem_cons_self, rfl⟩
    · exact (ih h).imp_right fun ⟨e, he, hrow⟩ => ⟨e, List.mem_cons_of_mem _ he, hrow⟩

/-- The last row holds a line. -/
theorem getLast?_rowsFrom {entries : List (Nat × Line)} {row : String}
    (h : (rowsFrom n entries).getLast? = some row) : ∃ e ∈ entries, row = e.2.text := by
  induction entries generalizing n row with
  | nil => cases h
  | cons e rest ih =>
    obtain ⟨k, l⟩ := e
    rw [rowsFrom, List.getLast?_append, List.getLast?_cons, Option.some_or, Option.some.injEq] at h
    cases hrest : (rowsFrom (k + 1) rest).getLast? with
    | none =>
      rw [hrest] at h
      exact ⟨(k, l), List.mem_cons_self, h.symm⟩
    | some last =>
      rw [hrest] at h
      obtain ⟨e, he, hlast⟩ := ih hrest
      exact ⟨e, List.mem_cons_of_mem _ he, h.symm.trans hlast⟩

/-! ## 2. Chunks -/

/-- The header of a chunk. -/
def header (ids : List Nat) : Json := .object [(headerField, .ofList .nat ids)]

variable {ids : List Nat} {table : Table Nat Line}

theorem toList_encode (ids : List Nat) (table : Table Nat Line) :
    (encode ids table).toList =
      ['\n'].intercalate ((header ids).chars :: (rowsFrom 1 table.entries).map String.toList) := by
  have hheader : (header ids).render.toList = (header ids).chars := String.toList_ofList
  rw [← hheader]
  exact String.toList_intercalate

theorem exists_header_eq_cons (ids : List Nat) : ∃ cs, (header ids).chars = '{' :: cs := ⟨_, rfl⟩

/-- No row of a chunk holds a line end, and the last one is not empty. -/
theorem rows_encode (ids : List Nat) (table : Table Nat Line) :
    Text.rows (encode ids table).toList =
      (header ids).chars :: (rowsFrom 1 table.entries).map String.toList := by
  rw [toList_encode]
  apply Text.rows_intercalate (List.cons_ne_nil _ _)
  · intro row hrow
    rcases List.mem_cons.1 hrow with rfl | hrow
    · exact ⟨Json.not_mem_chars (by decide) _, Json.not_mem_chars (by decide) _⟩
    · obtain ⟨text, htext, rfl⟩ := List.mem_map.1 hrow
      rcases mem_rowsFrom htext with rfl | ⟨e, -, rfl⟩
      · exact ⟨List.not_mem_nil, List.not_mem_nil⟩
      · rw [toList_text]
        exact ⟨Json.not_mem_chars (by decide) _, Json.not_mem_chars (by decide) _⟩
  · rw [List.getLast?_cons]
    -- the last row is the header or a line, and neither is empty
    intro hlast
    cases hrow : ((rowsFrom 1 table.entries).map String.toList).getLast? with
    | none =>
      rw [hrow] at hlast
      obtain ⟨cs, hcs⟩ := exists_header_eq_cons ids
      rw [hcs] at hlast
      cases hlast
    | some row =>
      rw [hrow] at hlast
      rw [List.getLast?_map, Option.map_eq_some_iff] at hrow
      obtain ⟨text, htext, rfl⟩ := hrow
      obtain ⟨e, -, rfl⟩ := getLast?_rowsFrom htext
      obtain ⟨cs, hcs⟩ := exists_text_eq_cons e.2
      rw [hcs] at hlast
      cases hlast

/-- The lines of a chunk are what is read of their rows, under the same numbers. -/
theorem lines_encode_eq_filterMap (h : ∀ n l, table.get? n = some l → n ≠ 0) :
    lines (encode ids table) = table.filterMap fun _ l => lineOfRow l.text.toList := by
  apply Table.ext
  show numbered 1 (((Text.rows (encode ids table).toList).drop 1).map lineOfRow) = _
  rw [rows_encode, List.drop_one, List.tail_cons]
  refine numbered_rowsFrom table.ascending fun e he => ?_
  have hne := h e.1 e.2 (table.get?_eq_some_iff.2 he)
  omega

/-- **The lines of a chunk are read back** under their numbers. -/
theorem lines_encode (h : Writable table) : lines (encode ids table) = table := by
  rw [lines_encode_eq_filterMap h.numbers]
  refine Table.ext_get? fun n => ?_
  rw [Table.get?_filterMap]
  cases hl : table.get? n with
  | none => rfl
  | some l => exact lineOfRow_text (h.fits n l hl) (h.readable n l hl)

theorem readableItems_nat {depth : Nat} (h : ∀ id ∈ ids, id < Text.word32) :
    Json.ReadableItems depth (ids.map Json.nat) := by
  induction ids with
  | nil => trivial
  | cons id rest ih =>
    have hid := h id List.mem_cons_self
    refine ⟨⟨?_, ?_⟩, ih fun k hk => h k (List.mem_cons_of_mem id hk)⟩
    · omega
    · unfold Text.word32 at hid
      omega

theorem readable_header (h : ∀ id ∈ ids, id < Text.word32) :
    (header ids).Readable Json.depthLimit :=
  ⟨by decide, ⟨by decide, readableItems_nat h⟩, trivial⟩

/-- **The ids in the header of a chunk are read back.** -/
theorem headerIds?_encode (h : ∀ id ∈ ids, id < Text.word32) (hasc : ids.Pairwise Precedes) :
    headerIds? (encode ids table) = some ids := by
  obtain ⟨cs, hcs⟩ := exists_header_eq_cons ids
  have htrim : Text.trim (header ids).chars = (header ids).chars := Json.trim_object _
  -- the header is an object, and so neither empty nor null
  have hplain : ¬ ((header ids).chars.isEmpty = true ∨ (header ids).chars = "null".toList) := by
    rw [hcs]
    rintro (h | h)
    · cases h
    · exact absurd (List.cons.inj h).1 (by decide)
  have hparse : Json.parseAs? (.ofNames [headerField]) (header ids).chars = some (header ids) :=
    Json.parseAs?_chars (readable_header h) (Json.Form.covers_ofNames fun f hf => by
      rw [List.mem_singleton.1 hf]
      exact List.mem_cons_self)
  have hrecord : (header ids).record? [headerField] = some [some (.ofList .nat ids)] :=
    Json.record?_zip (List.nodup_singleton headerField)
      (show [headerField].length = [Json.ofList .nat ids].length from rfl)
  have hids : Json.optional? (Json.list? Json.nat32?) (.ofList .nat ids) = some (some ids) := by
    show (Json.list? Json.nat32? (.ofList .nat ids)).map some = _
    rw [Json.list?_ofList fun id hid => Json.nat32?_nat (h id hid)]
    rfl
  rw [headerIds?, rows_encode]
  simp only [List.head?_cons, bind, Option.bind_some, htrim, if_neg hplain, hparse, hrecord,
    List.getElem?_cons_zero, Option.join_some, Option.getD_some, hids, Option.map_some,
    ascend_eq_self hasc]

/-- Inside a chunk no row begins like the separator of chunks. -/
theorem not_infix_encode (ids : List Nat) (table : Table Nat Line) :
    ¬ ['\n', '<'] <:+: (encode ids table).toList := by
  rw [toList_encode]
  apply Text.not_infix_intercalate (by decide) (Json.not_mem_chars (by decide) _)
  intro row hrow
  obtain ⟨text, htext, rfl⟩ := List.mem_map.1 hrow
  rcases mem_rowsFrom htext with rfl | ⟨e, -, rfl⟩
  · exact ⟨List.not_mem_nil, fun h => by cases h⟩
  · refine ⟨?_, ?_⟩
    · rw [toList_text]
      exact Json.not_mem_chars (by decide) _
    · obtain ⟨cs, hcs⟩ := exists_text_eq_cons e.2
      rw [hcs, List.head?_cons, ne_eq, Option.some.injEq]
      decide

theorem exists_encode_eq_cons (ids : List Nat) (table : Table Nat Line) :
    ∃ cs, (encode ids table).toList = '{' :: cs := by
  obtain ⟨cs, hcs⟩ := exists_header_eq_cons ids
  rw [toList_encode, hcs]
  cases (rowsFrom 1 table.entries).map String.toList with
  | nil => exact ⟨cs, List.intercalate_singleton⟩
  | cons row rows =>
    rw [List.intercalate_cons_cons]
    exact ⟨_, rfl⟩

end Chunk

/-! ## 3. The header of an archive -/

namespace Report

/-- The numbers of labels have 32 bits. -/
def LabelsFit (r : Report) : Prop :=
  ∀ t, r.labels = some t → ∀ n label, t.get? n = some label → n < Text.word32

variable {r : Report}

theorem readableFields_strings {depth : Nat} (entries : List (Nat × String)) :
    Json.ReadableFields depth (entries.map fun e => (toString e.1, .string e.2)) := by
  induction entries with
  | nil => trivial
  | cons e rest ih => exact ⟨trivial, ih⟩

theorem readable_headerJson (r : Report) : r.headerJson.Readable Json.depthLimit := by
  rw [headerJson]
  cases r.labels with
  | none => exact ⟨by decide, trivial⟩
  | some t => exact ⟨by decide, ⟨by decide, readableFields_strings t.entries⟩, trivial⟩

/-- What is read of the header of an archive. -/
def headerForm : Json.Form := .record [(labelsField, .numbered .whole)]

theorem covers_headerJson (r : Report) : headerForm.Covers r.headerJson := by
  rw [headerJson]
  cases r.labels with
  | none => trivial
  | some t =>
    exact ⟨⟨trivial, .numbered .whole, rfl,
      Json.Form.covers_numbered fun _ _ _ => Json.Form.covers_whole _⟩, trivial⟩

/-- **The labels in the header of an archive are read back.** -/
theorem labelsOfHeader_headerJson (h : r.LabelsFit) :
    labelsOfHeader r.headerJson.chars = r.labels := by
  have hparse : Json.parseAs? (.record [(labelsField, .numbered .whole)]) r.headerJson.chars =
      some r.headerJson :=
    Json.parseAs?_chars r.readable_headerJson r.covers_headerJson
  simp only [labelsOfHeader, hparse, bind, Option.bind_some]
  cases hl : r.labels with
  | none =>
    have hnone : r.headerJson.record? [labelsField] = some [none] := by
      rw [headerJson, hl]
      rfl
    rw [hnone]
    rfl
  | some t =>
    have hsome : r.headerJson.record? [labelsField] =
        some [some (Manifest.numberedObject .string t)] := by
      rw [headerJson, hl]
      exact Json.record?_zip (List.nodup_singleton labelsField)
        (show [labelsField].length = [Manifest.numberedObject Json.string t].length from rfl)
    have hread : Json.numberedTable? Json.string? (Manifest.numberedObject .string t) = some t :=
      numberedTable?_numberedObject fun n label hn => ⟨h t hl n label hn, rfl⟩
    have hlabels : Json.optional? (Json.numberedTable? Json.string?)
        (Manifest.numberedObject .string t) = some (some t) := by
      show (Json.numberedTable? Json.string? (Manifest.numberedObject .string t)).map some = _
      rw [hread]
      rfl
    rw [hsome]
    simp only [Option.bind_some, List.getElem?_cons_zero, Option.join_some, Option.getD_some,
      hlabels]

theorem toList_headerText (r : Report) :
    r.headerText.toList = r.headerJson.chars ++ '\n' :: (endOfHeader.toList ++ ['\n']) := by
  have hrender : r.headerJson.render.toList = r.headerJson.chars := String.toList_ofList
  rw [headerText, String.toList_append, String.toList_append, String.toList_append, hrender,
    List.append_assoc, List.append_assoc]
  rfl

theorem splitHeader_archive (r : Report) :
    splitHeader r.archive.toList = (some r.headerJson.chars, r.body.toList) := by
  have hfirst : '\n' ∉ r.headerJson.chars := Json.not_mem_chars (by decide) _
  have hsecond : '\n' ∉ endOfHeader.toList := by decide
  have hmarker : Text.dropLastWhile (· == '\r') endOfHeader.toList = endOfHeader.toList := by decide
  have hrows : Text.splitFirst '\n' 2 r.archive.toList =
      [r.headerJson.chars, endOfHeader.toList, r.body.toList] := by
    rw [archive, if_pos rfl, String.toList_append, toList_headerText, List.append_assoc,
      List.cons_append, List.append_assoc, List.singleton_append, Text.splitFirst,
      Text.splitOnce_append hfirst]
    dsimp only
    rw [Text.splitFirst, Text.splitOnce_append hsecond]
    rfl
  rw [splitHeader, hrows]
  dsimp only
  rw [if_pos hmarker]
  rfl

/-! ## 4. The chunks of an archive -/

theorem encode_of_parsed {f : SourceFile} (h : f.isParsed = true) :
    f.encode = Chunk.encode f.sessionIds f.lines := by
  rw [SourceFile.isParsed] at h
  rw [SourceFile.encode, SourceFile.lines]
  split
  · rename_i hcontent
    rw [hcontent] at h
    cases h
  · rfl

/-- A file whose chunk has been written from lines: its own ones, or others when it is unread. -/
def Written (f : SourceFile) : Prop := ∃ ids table, f.encode = Chunk.encode ids table

theorem written_of_parsed {f : SourceFile} (h : f.isParsed = true) : Written f :=
  ⟨_, _, encode_of_parsed h⟩

/-- The chunk of a slot: no separator, no empty text, and null only for an empty slot. -/
theorem slotText_spec {o : Option SourceFile} (h : ∀ f, o = some f → Written f) :
    ¬ ['\n', '<'] <:+: (slotText o).toList ∧ (slotText o).toList ≠ [] ∧
      (Text.trim (slotText o).toList = emptyChunk.toList ↔ o = none) := by
  cases o with
  | none =>
    refine ⟨?_, by decide, by decide⟩
    intro hin
    have hmem : '\n' ∈ emptyChunk.toList := hin.subset List.mem_cons_self
    exact absurd hmem (by decide)
  | some f =>
    obtain ⟨ids, table, hwritten⟩ := h f rfl
    obtain ⟨cs, hcs⟩ := Chunk.exists_encode_eq_cons ids table
    have htext : (slotText (some f)).toList = (Chunk.encode ids table).toList := by
      rw [slotText, hwritten]
    refine ⟨?_, ?_, ?_⟩
    · rw [htext]
      exact Chunk.not_infix_encode _ _
    · rw [htext, hcs]
      exact List.cons_ne_nil _ _
    · rw [htext, hcs]
      -- trimming keeps the brace at the start
      have hstart : Text.trimStart ('{' :: cs) = '{' :: cs := by
        rw [Text.trimStart, List.dropWhile_cons, if_neg (by decide)]
      have hprefix : Text.trim ('{' :: cs) <+: '{' :: cs := by
        rw [Text.trim, hstart, Text.trimEnd, Text.dropLastWhile, ← List.reverse_suffix,
          List.reverse_reverse]
        exact List.dropWhile_suffix _
      constructor
      · intro hnull
        rw [hnull] at hprefix
        exact absurd (List.cons_prefix_cons.1 hprefix).1 (by decide)
      · intro hnone
        cases hnone

theorem toList_body (r : Report) :
    r.body.toList = chunkSeparator.toList.intercalate
      (r.slots.map fun o => (slotText o).toList) := by
  rw [body, String.toList_intercalate, List.map_map]
  rfl

/-- The chunks that are found in the body of an archive. -/
theorem chunks_body (h : ∀ o ∈ r.slots, ∀ f, o = some f → Written f) :
    (if r.body.toList.isEmpty then [] else Text.splitText chunkSeparator.toList r.body.toList) =
      r.slots.map fun o => (slotText o).toList := by
  have hsep : chunkSeparator.toList = '\n' :: '<' :: chunkSeparator.toList.drop 2 := by decide
  rw [toList_body]
  cases hslots : r.slots with
  | nil => rfl
  | cons o rest =>
    rw [hslots] at h
    have hne := (slotText_spec (h o List.mem_cons_self)).2.1
    obtain ⟨c, cs, hc⟩ := List.exists_cons_of_ne_nil hne
    -- a body of some slots is not empty, as every slot writes something
    have hnonempty : (chunkSeparator.toList.intercalate
        ((o :: rest).map fun o => (slotText o).toList)).isEmpty = false := by
      rw [List.map_cons]
      cases rest.map fun o => (slotText o).toList with
      | nil => rw [List.intercalate_singleton, hc]; rfl
      | cons next others => rw [List.intercalate_cons_cons, hc]; rfl
    rw [hnonempty, if_neg (by decide), hsep]
    apply Text.splitText_intercalate (by decide)
    · rw [List.map_cons]
      exact List.cons_ne_nil _ _
    · intro p hp
      obtain ⟨own, hown, rfl⟩ := List.mem_map.1 hp
      exact (slotText_spec (h own hown)).1

/-- The slot of a chunk that was written for a slot. -/
theorem slotOfChunk_slotText (m : Manifest) (slot : Nat) {o : Option SourceFile}
    (h : ∀ f, o = some f → Written f) :
    slotOfChunk m slot (slotText o).toList =
      o.map fun f => { name := nameOfSlot m slot, content := .text f.encode } := by
  have hnull := (slotText_spec h).2.2
  cases o with
  | none => rw [slotOfChunk, if_pos (hnull.2 rfl)]; rfl
  | some f =>
    rw [slotOfChunk, if_neg fun heq => Option.some_ne_none f (hnull.1 heq), String.ofList_toList]
    rfl

/-- **An archive is read back slot by slot**, the lines of its files being unread. -/
theorem slots_ofArchive_archive (m : Manifest)
    (h : ∀ o ∈ r.slots, ∀ f, o = some f → Written f) :
    (ofArchive r.archive m).slots = r.slots.mapIdx fun slot o =>
      o.map fun f => { name := nameOfSlot m slot, content := .text f.encode } := by
  rw [ofArchive, splitHeader_archive]
  dsimp only
  rw [chunks_body h]
  apply List.ext_getElem?
  intro i
  rw [List.getElem?_mapIdx, List.getElem?_map, List.getElem?_mapIdx]
  cases ho : r.slots[i]? with
  | none => rfl
  | some o => exact congrArg some (slotOfChunk_slotText m i (h o (List.mem_of_getElem? ho)))

/-- The labels stand in the header, and all else is from the manifest. -/
theorem ofArchive_archive (m : Manifest) (hlabels : r.LabelsFit)
    (h : ∀ o ∈ r.slots, ∀ f, o = some f → Written f) :
    ofArchive r.archive m =
      { files := m.files
        slots := r.slots.mapIdx fun slot o =>
          o.map fun f => { name := nameOfSlot m slot, content := .text f.encode }
        sessions := m.sessions
        labels := r.labels } := by
  have hslots := slots_ofArchive_archive m h
  rw [ofArchive, splitHeader_archive] at hslots ⊢
  dsimp only at hslots ⊢
  rw [hslots, Option.bind_some, labelsOfHeader_headerJson hlabels]

end Report

end CoverageLedger
