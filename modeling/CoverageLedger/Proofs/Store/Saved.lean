import CoverageLedger.Proofs.Report.Archive
import CoverageLedger.Proofs.Report.Reached
import CoverageLedger.Store

/-!
# Saved reports

What is saved under a name is loaded again, whatever is saved under other names later: the two keys
of a name belong to no other.  The loaded report (`Report.restored`) has the chunks unread, and shows
what the saved one did.  Saved once more, it gives the same texts, as unread chunks are copied and
the manifest of a reached report already had the totals of its lines.
-/

namespace CoverageLedger

/-! ## 1. Keys and bytes -/

theorem Text.decodeUtf8_toUTF8 (s : String) : decodeUtf8 s.toUTF8 = .ok s := by
  have hback : String.fromUTF8? s.toUTF8 = some s := dif_pos s.isValidUTF8
  rw [decodeUtf8, hback]

namespace Store

variable {a b : String}

theorem archiveKey_ne (h : a ≠ b) : archiveKey a ≠ archiveKey b := fun heq =>
  h ((String.append_left_inj _).1 heq)

theorem manifestKey_ne (h : a ≠ b) : manifestKey a ≠ manifestKey b := fun heq =>
  h ((String.append_left_inj _).1 heq)

/-- The last characters of the two kinds of keys are not the same. -/
theorem archiveKey_ne_manifestKey (a b : String) : archiveKey a ≠ manifestKey b := fun heq => by
  have hlast : (archiveKey a).toList.getLast? = (manifestKey b).toList.getLast? := by rw [heq]
  rw [archiveKey, manifestKey, String.toList_append, String.toList_append] at hlast
  simp at hlast

theorem load_save (s : Store) (name : String) (r : Report) :
    (s.save name r).load name = Report.ofTexts r.archive r.manifestText := by
  have harchive : (s.save name r).get? (archiveKey name) = some r.archive.toUTF8 := by
    rw [save, Table.get?_insert, if_neg (archiveKey_ne_manifestKey name name),
      Table.get?_insert_self]
  have hmanifest : (s.save name r).get? (manifestKey name) = some r.manifestText.toUTF8 := by
    rw [save, Table.get?_insert_self]
  rw [load, harchive, hmanifest]
  simp only [text?, Text.decodeUtf8_toUTF8]
  rfl

theorem load_save_of_ne (s : Store) {name other : String} (h : other ≠ name) (r : Report) :
    (s.save other r).load name = s.load name := by
  have harchive : (s.save other r).get? (archiveKey name) = s.get? (archiveKey name) := by
    rw [save, Table.get?_insert, if_neg (archiveKey_ne_manifestKey name other), Table.get?_insert,
      if_neg (archiveKey_ne h.symm)]
  have hmanifest : (s.save other r).get? (manifestKey name) = s.get? (manifestKey name) := by
    rw [save, Table.get?_insert, if_neg (manifestKey_ne h.symm), Table.get?_insert,
      if_neg (archiveKey_ne_manifestKey other name).symm]
  rw [load, load, harchive, hmanifest]

/-- Reports that are saved under other names later do not matter. -/
theorem load_foldl_save (s : Store) {name : String} {others : List (String × Report)}
    (h : ∀ o ∈ others, o.1 ≠ name) :
    (others.foldl (fun s o => s.save o.1 o.2) s).load name = s.load name := by
  induction others generalizing s with
  | nil => rfl
  | cons o rest ih =>
    rw [List.foldl_cons, ih _ fun o' ho' => h o' (List.mem_cons_of_mem o ho'),
      load_save_of_ne s (h o List.mem_cons_self)]

end Store

/-! ## 2. One file -/

namespace SourceFile

/-- The file that is loaded in place of a saved one. -/
def restored (f : SourceFile) : SourceFile := { name := f.name, content := .text f.encode }

/-- What a file shows: its name, its lines with their numbers, and its sessions. -/
def account (f : SourceFile) : String × List (Nat × Line) × List Nat :=
  (f.name, f.lines.entries, f.sessionIds)

variable {f : SourceFile}

theorem lines_restored (hsound : f.Sound) (hparsed : f.isParsed = true)
    (hlines : ∀ n l, f.lines.get? n = some l → l.Fits ∧ l.toJson.Readable Json.depthLimit) :
    f.restored.lines = f.lines := by
  show Chunk.lines f.encode = f.lines
  rw [Report.encode_of_parsed hparsed]
  exact Chunk.lines_encode ⟨hsound.numbers, fun n l hl => (hlines n l hl).1,
    fun n l hl => (hlines n l hl).2⟩

theorem sessionIds_restored (hsound : f.Sound) (hparsed : f.isParsed = true)
    (hlines : ∀ n l, f.lines.get? n = some l → l.Fits) : f.restored.sessionIds = f.sessionIds := by
  have hids : Declarable f.sessionIds := hsound.declarable_sessionIds hparsed fun n l hl s hs =>
    ((hlines n l hl).sessions s hs).id
  have hheader : Chunk.headerIds? f.encode = some f.sessionIds := by
    rw [Report.encode_of_parsed hparsed]
    exact Chunk.headerIds?_encode hids.bounded hids.ascending
  show (Chunk.headerIds? f.encode).getD _ = f.sessionIds
  rw [hheader]
  rfl

end SourceFile

/-! ## 3. One report -/

namespace Report

variable {r : Report}

/-- Everything in a report has a value of the form that is stored: numbers in the ranges of their
fields, readings as they are made of numbers, no null where null stands for absence, and JSON that is
read back as it was written. -/
structure Storable (r : Report) : Prop where
  lines : ∀ name f, r.file? name = some f → ∀ n l, f.lines.get? n = some l →
    l.Fits ∧ l.toJson.Readable Json.depthLimit
  entries : ∀ name e, r.files.get? name = some e → e.Fits
  sessions : ∀ id s, r.sessions.get? id = some s → id < Text.word32 ∧ s.Fits
  labels : r.LabelsFit
  manifest : r.manifest.toJson.Readable Json.depthLimit

/-- The report that is loaded in place of a saved one. -/
def restored (r : Report) : Report :=
  { files := r.files
    slots := r.slots.map (Option.map SourceFile.restored)
    sessions := r.sessions
    labels := r.labels }

theorem slotOf?_manifest (r : Report) (q : String) :
    (r.manifest.files.get? q).map (·.slot) = r.slotOf? q := by
  rw [manifest, Table.get?_map, Option.map_map, slotOf?]
  refine congrArg (Option.map · (r.files.get? q)) (funext fun e => ?_)
  dsimp only [Function.comp_apply]
  split
  · split <;> rfl
  · rfl

/-- The totals of read lines are those that the manifest has. -/
theorem Counted.manifest (hc : r.Counted) (h : r.Consistent) :
    r.manifest = { files := r.files, sessions := r.sessions } := by
  have hfiles : r.manifest.files = r.files := by
    refine Table.ext_get? fun q => ?_
    rw [Report.manifest, Table.get?_map]
    cases he : r.files.get? q with
    | none => rfl
    | some e =>
      obtain ⟨f, hf⟩ := h.file?_of_get? he
      have hin : r.inSlot? e.slot = some f := by rw [← file?_of_slotOf? (slotOf?_of_get? he), hf]
      have htotals := hc q e f he hf
      rw [Option.map_some, hin]
      dsimp only
      rw [← htotals, ite_self]
  rw [← hfiles]
  rfl

theorem Sound.manifest (h : r.Sound) :
    r.manifest = { files := r.files, sessions := r.sessions } := h.counted.manifest h.consistent

/-- A manifest with the slots of a report gives each one the name that leads to it. -/
theorem Consistent.nameOfSlot (h : r.Consistent) {m : Manifest}
    (hslots : ∀ q, (m.files.get? q).map (·.slot) = r.slotOf? q) {name : String} {s : Nat}
    (hslot : r.slotOf? name = some s) : nameOfSlot m s = name := by
  obtain ⟨e, he, rfl⟩ := Option.map_eq_some_iff.1 ((hslots name).trans hslot)
  have hmem : (name, e) ∈ m.files.entries := (Table.get?_eq_some_iff _).1 he
  rw [Report.nameOfSlot]
  cases hfind : m.files.entries.reverse.find? fun own => own.2.slot == e.slot with
  | none =>
    have hnone := List.find?_eq_none.1 hfind (name, e) (List.mem_reverse.2 hmem)
    exact absurd (beq_self_eq_true _) hnone
  | some own =>
    have hmatch := List.find?_some hfind
    have hsame : own.2.slot = e.slot := eq_of_beq hmatch
    have hget : m.files.get? own.1 = some own.2 :=
      (Table.get?_eq_some_iff _).2 (List.mem_reverse.1 (List.mem_of_find?_eq_some hfind))
    have hother : r.slotOf? own.1 = some e.slot := by
      rw [← hslots, hget, Option.map_some, hsame]
    rw [Option.map_some, Option.getD_some, h.apart hother hslot]

theorem Sound.exists_file? (h : r.Sound) {s : Nat} {f : SourceFile} (hf : r.inSlot? s = some f) :
    ∃ name e, r.file? name = some f ∧ r.slotOf? name = some s ∧ Settled name e f := by
  obtain ⟨name, hname⟩ := h.consistent.used hf
  have hown : r.file? name = some f := by rw [file?_of_slotOf? hname, hf]
  obtain ⟨e, he⟩ := h.settled_file hown
  exact ⟨name, e, hown, hname, he⟩

/-- The manifest gives a slot the name of its file. -/
theorem Sound.nameOfSlot (h : r.Sound) {s : Nat} {f : SourceFile} (hf : r.inSlot? s = some f) :
    nameOfSlot r.manifest s = f.name := by
  obtain ⟨name, _, _, hslot, hsettled⟩ := h.exists_file? hf
  rw [h.consistent.nameOfSlot r.slotOf?_manifest hslot, hsettled.name]

theorem Sound.ofText?_manifestText (h : r.Sound) (hstore : r.Storable) :
    Manifest.ofText? r.manifestText = some r.manifest := by
  refine Manifest.ofText?_render ⟨?_, hstore.sessions⟩ hstore.manifest
  intro name e he
  rw [h.manifest] at he
  obtain ⟨f, hf⟩ := h.consistent.file?_of_get? he
  exact ⟨hstore.entries name e he, (h.settled name e f he hf).bounded⟩

/-- **The texts of a sound report are read back**, its files being unread. -/
theorem Sound.ofTexts (h : r.Sound) (hstore : r.Storable) :
    Report.ofTexts r.archive r.manifestText = .ok r.restored := by
  have hwritten : ∀ o ∈ r.slots, ∀ f, o = some f → Written f := by
    rintro o ho f rfl
    obtain ⟨s, hs, heq⟩ := List.getElem_of_mem ho
    have hin : r.inSlot? s = some f := inSlot?_eq_some.2 (by rw [← heq, List.getElem?_eq_getElem hs])
    obtain ⟨_, _, _, _, hsettled⟩ := h.exists_file? hin
    exact written_of_parsed hsettled.parsed
  -- the manifest gives every filled slot the name of the file in it
  have hslots : (r.slots.mapIdx fun slot o => o.map fun f =>
      ({ name := Report.nameOfSlot r.manifest slot, content := .text f.encode } : SourceFile)) =
      r.slots.map (Option.map SourceFile.restored) := by
    apply List.ext_getElem?
    intro i
    rw [List.getElem?_mapIdx, List.getElem?_map]
    cases ho : r.slots[i]? with
    | none => rfl
    | some o =>
      cases o with
      | none => rfl
      | some f =>
        have hname := h.nameOfSlot (inSlot?_eq_some.2 ho)
        rw [Option.map_some, Option.map_some, Option.map_some, Option.map_some, hname]
        rfl
  rw [Report.ofTexts, h.ofText?_manifestText hstore]
  dsimp only
  rw [ofArchive_archive r.manifest hstore.labels hwritten, hslots, h.manifest]
  rfl

/-! ## 4. What the loaded report shows -/

theorem inSlot?_restored (s : Nat) :
    r.restored.inSlot? s = (r.inSlot? s).map SourceFile.restored := by
  show ((r.slots.map (Option.map SourceFile.restored))[s]?).join = _
  rw [List.getElem?_map, inSlot?]
  cases r.slots[s]? with
  | none => rfl
  | some o => rfl

theorem file?_restored (name : String) :
    r.restored.file? name = (r.file? name).map SourceFile.restored := by
  have hslot : r.restored.slotOf? name = r.slotOf? name := rfl
  rw [file?, hslot, file?]
  cases r.slotOf? name with
  | none => rfl
  | some s => exact inSlot?_restored s

theorem Sound.account_restored (h : r.Sound) (hstore : r.Storable) {s : Nat} {f : SourceFile}
    (hf : r.inSlot? s = some f) : f.restored.account = f.account := by
  obtain ⟨name, _, hown, _, hsettled⟩ := h.exists_file? hf
  have hlines := hstore.lines name f hown
  rw [SourceFile.account, SourceFile.account,
    SourceFile.lines_restored hsettled.sound hsettled.parsed hlines,
    SourceFile.sessionIds_restored hsettled.sound hsettled.parsed fun n l hl => (hlines n l hl).1]
  rfl

/-- Totals of unread files are taken from the manifest, which has them right. -/
theorem Sound.computedTotals_restored (h : r.Sound) :
    r.restored.computedTotals = r.computedTotals := by
  refine Report.computedTotals_congr rfl (fun q => ?_) rfl
  rw [h.fileTotals?, Report.fileTotals?]
  show (r.files.get? q).map _ = _
  cases he : r.files.get? q with
  | none =>
    have hnone : r.file? q = none := by rw [file?, slotOf?, he]; rfl
    rw [hnone]
    rfl
  | some e =>
    obtain ⟨f, hf⟩ := h.consistent.file?_of_get? he
    have hin : r.inSlot? e.slot = some f := by rw [← file?_of_slotOf? (slotOf?_of_get? he), hf]
    rw [Option.map_some, inSlot?_restored, hin, hf, Option.map_some, Option.map_some,
      ← (h.settled q e f he hf).totals]
    rfl

theorem archive_restored (r : Report) : r.restored.archive = r.archive := by
  have hslots : r.restored.slots.map slotText = r.slots.map slotText := by
    show (r.slots.map (Option.map SourceFile.restored)).map slotText = _
    rw [List.map_map]
    refine List.map_congr_left fun o _ => ?_
    cases o <;> rfl
  show r.restored.headerText ++ r.restored.body = r.headerText ++ r.body
  rw [body, body, hslots]
  rfl

theorem Sound.manifestText_restored (h : r.Sound) :
    r.restored.manifestText = r.manifestText := by
  have hfiles : r.restored.manifest.files = r.files := by
    refine Table.ext_get? fun q => ?_
    rw [Report.manifest, Table.get?_map]
    show (r.files.get? q).map _ = r.files.get? q
    cases r.files.get? q with
    | none => rfl
    | some e =>
      rw [Option.map_some, inSlot?_restored]
      cases r.inSlot? e.slot <;> rfl
  have hmanifest : r.restored.manifest = r.manifest := by
    rw [h.manifest, ← hfiles]
    rfl
  rw [manifestText, manifestText, hmanifest]

end Report

/-- **A report that is saved is loaded again**, after any history and whatever is saved under other
names later: every file with its lines and sessions, in its slot and under its name, the slots
without a file, the sessions, the labels, the entries of the manifest and the totals.  Saved once
more, it gives the same texts. -/
theorem Store.load_reached {r : Report} (hreached : r.Reached) (hstore : r.Storable) (s : Store)
    (name : String) {others : List (String × Report)} (hothers : ∀ o ∈ others, o.1 ≠ name) :
    ∃ loaded, (others.foldl (fun s o => s.save o.1 o.2) (s.save name r)).load name = .ok loaded ∧
      loaded.names = r.names ∧
      (∀ q, (loaded.file? q).map SourceFile.account = (r.file? q).map SourceFile.account) ∧
      loaded.slots.map (Option.map SourceFile.account) = r.slots.map (Option.map SourceFile.account) ∧
      loaded.sessions = r.sessions ∧
      loaded.labels = r.labels ∧
      loaded.files = r.files ∧
      loaded.totals.1 = r.totals.1 ∧
      loaded.archive = r.archive ∧
      loaded.manifestText = r.manifestText := by
  obtain ⟨hsound, hkeeps⟩ := hreached.sound
  refine ⟨r.restored, ?_, rfl, fun q => ?_, ?_, rfl, rfl, rfl, ?_, r.archive_restored,
    hsound.manifestText_restored⟩
  · rw [load_foldl_save _ hothers, load_save, hsound.ofTexts hstore]
  · rw [Report.file?_restored]
    cases hf : r.file? q with
    | none => rfl
    | some f =>
      obtain ⟨slot, -, hin⟩ := Report.file?_eq_some.1 hf
      rw [Option.map_some, Option.map_some, Option.map_some, hsound.account_restored hstore hin]
  · show (r.slots.map (Option.map SourceFile.restored)).map (Option.map SourceFile.account) = _
    apply List.ext_getElem?
    intro i
    rw [List.map_map, List.getElem?_map, List.getElem?_map]
    cases ho : r.slots[i]? with
    | none => rfl
    | some o =>
      cases o with
      | none => rfl
      | some f =>
        have haccount := hsound.account_restored hstore (Report.inSlot?_eq_some.2 ho)
        exact congrArg (fun a => some (some a)) haccount
  · -- totals that were computed before saving are those that the loaded report computes
    rw [hkeeps.fst_totals, ← hsound.computedTotals_restored]
    rfl

/-! A report with a slot that a file has left. -/

namespace Report

/-- A line that session 0 reached. -/
def savedLine : Line := .ofSession { id := 0, reading := .hit .one }

def savedFile (name : String) : SourceFile :=
  { name, content := .lines ((∅ : Table Nat Line).insert 2 savedLine) }

def savedReport : Report :=
  ((((({} : Report).addSession {}).2.append (savedFile "b")).2.append (savedFile "a")).2.remove "b").2

theorem eq_of_get?_savedFile {name : String} {n : Nat} {l : Line}
    (hl : (savedFile name).lines.get? n = some l) : n = 2 ∧ l = savedLine := by
  rw [savedFile, SourceFile.lines, Table.get?_insert] at hl
  split at hl
  · rename_i hn
    exact ⟨hn, (Option.some.inj hl).symm⟩
  · cases hl

theorem sound_savedFile (name : String) : (savedFile name).Sound where
  numbers := by
    intro n l hl
    rw [(eq_of_get?_savedFile hl).1]
    decide
  declared := by
    intro ids hids
    cases hids

theorem reached_savedReport : savedReport.Reached :=
  .step (.step (.step (.step .new (.addSession {})) (.append _ true (sound_savedFile "b")))
    (.append _ true (sound_savedFile "a"))) (.remove "b")

theorem eq_of_file?_savedReport {name : String} {f : SourceFile}
    (hf : savedReport.file? name = some f) : f = savedFile "a" := by
  obtain ⟨s, -, hin⟩ := file?_eq_some.1 hf
  have hslots : savedReport.slots = [none, some (savedFile "a")] := rfl
  rw [inSlot?, hslots] at hin
  cases s with
  | zero => cases hin
  | succ s =>
    cases s with
    | zero => exact (Option.some.inj hin).symm
    | succ s => cases hin

def savedEntry : FileEntry := .ofFile 1 (savedFile "a")

def savedTotals : Totals := .ofLines [savedLine]

theorem fits_savedLine : savedLine.Fits where
  reading := ⟨by decide, by decide⟩
  sessions := by
    intro s hs
    rw [List.mem_singleton.1 hs]
    refine ⟨by decide, ⟨by decide, by decide⟩, ?_, ?_, ?_⟩ <;> (intro _ h; cases h)
  messages := by
    intro j h
    cases h
  complexity := by
    intro c h
    cases h
  datapoints := by
    intro ds h
    cases h

theorem fits_savedTotals : savedTotals.Fits := .of_counts (by decide) rfl rfl rfl

theorem storable_savedReport : savedReport.Storable where
  lines := by
    intro name f hf n l hl
    rw [eq_of_file?_savedReport hf] at hl
    rw [(eq_of_get?_savedFile hl).2]
    exact ⟨fits_savedLine, by decide⟩
  entries := by
    intro name e he
    have hmem : (name, e) ∈ [("a", savedEntry)] := (Table.get?_eq_some_iff _).1 he
    obtain ⟨-, rfl⟩ := Prod.mk.inj (List.mem_singleton.1 hmem)
    refine ⟨fits_savedTotals, fun id t ht => ?_, fun t ht => by cases ht⟩
    have hid : (id, t) ∈ [(0, savedTotals)] := (Table.get?_eq_some_iff _).1 ht
    obtain ⟨rfl, rfl⟩ := Prod.mk.inj (List.mem_singleton.1 hid)
    exact ⟨by decide, fits_savedTotals⟩
  sessions := by
    intro id s hs
    have hmem : (id, s) ∈ [(0, ({} : Session))] := (Table.get?_eq_some_iff _).1 hs
    obtain ⟨rfl, rfl⟩ := Prod.mk.inj (List.mem_singleton.1 hmem)
    refine ⟨by decide, ?_, ?_, ?_, ?_⟩ <;> (intros; rename_i h; cases h)
  labels := by
    intro t ht
    cases ht
  manifest := by decide

end Report

theorem Store.load_reached_savedReport :
    Report.savedReport.Reached ∧ Report.savedReport.Storable ∧ ("b" : String) ≠ "a" ∧
    ∃ loaded, (((∅ : Store).save "a" Report.savedReport).save "b" {}).load "a" = .ok loaded ∧
      loaded.slots.map (Option.map SourceFile.account) =
        [none, some ("a", [(2, Report.savedLine)], [0])] := by
  have hothers : ∀ o ∈ [("b", ({} : Report))], o.1 ≠ "a" := by
    intro o ho
    rw [List.mem_singleton.1 ho]
    decide
  obtain ⟨loaded, hloaded, -, -, hslots, -⟩ := Store.load_reached Report.reached_savedReport
    Report.storable_savedReport ∅ "a" hothers
  exact ⟨Report.reached_savedReport, Report.storable_savedReport, by decide, loaded, hloaded, hslots⟩

end CoverageLedger
