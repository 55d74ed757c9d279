import CoverageLedger.Proofs.Store.Saved

/-!
# What a saved report is loaded as

A report that is saved and loaded may come back with other numbers, because the reader of its
manifest makes something of every text.  Which names it has, in which slots their files are, and
what the text of each file is does not depend on that.
-/

namespace CoverageLedger

namespace Report

variable {r loaded : Report} {name : String} {f : SourceFile}

theorem ofTexts_eq_ok {text manifest : String} (h : ofTexts text manifest = .ok r) :
    ∃ m, Manifest.ofText? manifest = some m ∧ ofArchive text m = r := by
  unfold ofTexts at h
  split at h
  · rename_i m hm
    exact ⟨m, hm, Except.ok.inj h⟩
  · cases h

/-- The file that is loaded under a name. -/
def reloaded (name : String) (f : SourceFile) : SourceFile := { name, content := .text f.encode }

/-- Names, slots and texts of a loaded report. -/
structure LoadsAs (r loaded : Report) : Prop where
  consistent : loaded.Consistent
  names : loaded.names = r.names
  file : ∀ q, loaded.file? q = (r.file? q).map (reloaded q)
  known : loaded.knownTotals = none

theorem Consistent.written_slots (h : r.Consistent)
    (hwritten : ∀ q f, r.file? q = some f → Written f) :
    ∀ o ∈ r.slots, ∀ f, o = some f → Written f := by
  rintro o ho f rfl
  obtain ⟨q, hq⟩ := h.exists_file?_of_mem_slots ho
  exact hwritten q f hq

/-- **A consistent report is loaded with its files under their names**, whatever is read of the
numbers in its manifest. -/
theorem Consistent.loadsAs (h : r.Consistent) (hwritten : ∀ q f, r.file? q = some f → Written f)
    {m : Manifest} (hm : Manifest.ofText? r.manifestText = some m) :
    LoadsAs r (ofArchive r.archive m) := by
  obtain ⟨hkeys, hslots⟩ := Manifest.slots_accepted hm
  have hslot (q : String) : (m.files.get? q).map (·.slot) = r.slotOf? q :=
    (hslots q).trans (r.slotOf?_manifest q)
  have hin (slot : Nat) : (ofArchive r.archive m).inSlot? slot =
      (r.inSlot? slot).map (reloaded (Report.nameOfSlot m slot)) := by
    rw [inSlot?, slots_ofArchive_archive m (h.written_slots hwritten), List.getElem?_mapIdx, inSlot?]
    cases r.slots[slot]? with
    | none => rfl
    | some o => rfl
  refine ⟨h.congr hslot fun slot => ?_, hkeys.trans ?_, fun q => ?_, rfl⟩
  · rw [hin, Option.isSome_map]
  · rw [manifest, names, Table.keys, Table.keys, Table.map, List.map_map]
    rfl
  · rw [file?, show (ofArchive r.archive m).slotOf? q = r.slotOf? q from hslot q, file?]
    cases hq : r.slotOf? q with
    | none => rfl
    | some slot =>
      rw [Option.bind_some, Option.bind_some, hin, h.nameOfSlot hslot hq]

end Report

end CoverageLedger
