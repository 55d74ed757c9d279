import CoverageLedger.Report

/-!
# Slots and the manifest

Every operation on a report moves files between slots or rewrites entries of the manifest.  The
lemmas here say, for each primitive one, what is found afterwards in a slot (`inSlot?`), under a
name (`slotOf?`, `file?`) and in the manifest (`files.get?`).  Later proofs use these equations and
never unfold the operations.
-/

namespace CoverageLedger.Report

variable {r : Report} {name : String} {f : SourceFile}

/-! ## 1. Looking up -/

theorem slotOf?_of_get? {e : FileEntry} (h : r.files.get? name = some e) :
    r.slotOf? name = some e.slot := by
  rw [slotOf?, h]
  rfl

theorem slotOf?_eq_some {slot : Nat} :
    r.slotOf? name = some slot ↔ ∃ e, r.files.get? name = some e ∧ e.slot = slot :=
  Option.map_eq_some_iff

theorem file?_eq_some :
    r.file? name = some f ↔ ∃ slot, r.slotOf? name = some slot ∧ r.inSlot? slot = some f :=
  Option.bind_eq_some_iff

theorem file?_of_slotOf? {slot : Nat} (h : r.slotOf? name = some slot) :
    r.file? name = r.inSlot? slot := by
  rw [file?, h]
  rfl

theorem contains_of_file? (h : r.file? name = some f) : r.files.contains name = true := by
  obtain ⟨slot, hslot, -⟩ := file?_eq_some.1 h
  obtain ⟨e, he, -⟩ := slotOf?_eq_some.1 hslot
  exact r.files.contains_iff.2 (r.files.mem_keys_iff.2 ⟨e, he⟩)

theorem inSlot?_eq_some {slot : Nat} : r.inSlot? slot = some f ↔ r.slots[slot]? = some (some f) := by
  rw [inSlot?]
  cases r.slots[slot]? with
  | none => simp
  | some o => simp

theorem lt_length_of_inSlot? {slot : Nat} (h : r.inSlot? slot = some f) : slot < r.slots.length := by
  have hslot := inSlot?_eq_some.1 h
  exact (List.getElem?_eq_some_iff.1 hslot).1

/-- Slots and manifest decide what is found under a name. -/
theorem file?_congr {r₁ r₂ : Report} (hslot : r₁.slotOf? name = r₂.slotOf? name)
    (hin : ∀ slot, r₁.inSlot? slot = r₂.inSlot? slot) : r₁.file? name = r₂.file? name := by
  rw [file?, file?, hslot]
  exact congrArg _ (funext hin)

theorem mem_names : name ∈ r.names ↔ ∃ e, r.files.get? name = some e :=
  r.files.mem_keys_iff

/-! ## 2. Filling a slot -/

@[simp] theorem inSlot?_changed (slot : Nat) : r.changed.inSlot? slot = r.inSlot? slot := rfl

@[simp] theorem slotOf?_changed : r.changed.slotOf? name = r.slotOf? name := rfl

@[simp] theorem file?_changed : r.changed.file? name = r.file? name := rfl

@[simp] theorem files_changed : r.changed.files = r.files := rfl

@[simp] theorem files_setSlot (slot : Nat) (o : Option SourceFile) :
    (r.setSlot slot o).files = r.files := rfl

@[simp] theorem slotOf?_setSlot (slot : Nat) (o : Option SourceFile) :
    (r.setSlot slot o).slotOf? name = r.slotOf? name := rfl

theorem inSlot?_setSlot (slot s : Nat) (o : Option SourceFile) (h : slot < r.slots.length) :
    (r.setSlot slot o).inSlot? s = if s = slot then o else r.inSlot? s := by
  rw [inSlot?, setSlot]
  by_cases hs : s = slot
  · rw [hs, List.getElem?_set_self h, if_pos rfl]
    rfl
  · rw [List.getElem?_set_ne (Ne.symm hs), if_neg hs]
    rfl

/-- Emptying a slot that is not there changes nothing, so no bound is needed. -/
theorem inSlot?_setSlot_none (slot s : Nat) :
    (r.setSlot slot none).inSlot? s = if s = slot then none else r.inSlot? s := by
  by_cases h : slot < r.slots.length
  · exact inSlot?_setSlot slot s none h
  · have hslots : r.slots.set slot none = r.slots := List.set_eq_of_length_le (by omega)
    have hsame : (r.setSlot slot none).inSlot? s = r.inSlot? s := by
      rw [inSlot?, setSlot, hslots]
      rfl
    rw [hsame]
    by_cases hs : s = slot
    · have hout : r.slots[s]? = none := List.getElem?_eq_none (by omega)
      rw [if_pos hs, inSlot?, hout]
      rfl
    · rw [if_neg hs]

theorem putFile_of_slotOf? {slot : Nat} (h : r.slotOf? name = some slot) :
    r.putFile name f = r.setSlot slot (some f) := by
  rw [putFile, h]

@[simp] theorem files_putFile : (r.putFile name f).files = r.files := by
  rw [putFile]
  split <;> rfl

@[simp] theorem slotOf?_putFile (q : String) : (r.putFile name f).slotOf? q = r.slotOf? q := by
  rw [slotOf?, files_putFile, slotOf?]

@[simp] theorem sessions_putFile : (r.putFile name f).sessions = r.sessions := by
  rw [putFile]
  split <;> rfl

@[simp] theorem labels_putFile : (r.putFile name f).labels = r.labels := by
  rw [putFile]
  split <;> rfl

@[simp] theorem knownTotals_putFile : (r.putFile name f).knownTotals = r.knownTotals := by
  rw [putFile]
  split <;> rfl

/-- A new state of a file is found in its slot and nowhere else. -/
theorem inSlot?_putFile {own : SourceFile} (h : r.file? name = some own) (s : Nat) :
    (r.putFile name f).inSlot? s = if r.slotOf? name = some s then some f else r.inSlot? s := by
  obtain ⟨slot, hslot, hown⟩ := file?_eq_some.1 h
  rw [putFile_of_slotOf? hslot, inSlot?_setSlot slot s _ (lt_length_of_inSlot? hown), hslot]
  by_cases hs : s = slot
  · rw [if_pos hs, if_pos (by rw [hs])]
  · rw [if_neg hs, if_neg (fun e => hs (Option.some.inj e).symm)]

section afterReading

variable (r : Report) (name : String) (read : SourceFile → SourceFile)

theorem files_afterReading : (r.afterReading name read).files = r.files := by
  unfold afterReading
  split
  · exact files_putFile
  · rfl

theorem sessions_afterReading : (r.afterReading name read).sessions = r.sessions := by
  unfold afterReading
  split
  · exact sessions_putFile
  · rfl

theorem labels_afterReading : (r.afterReading name read).labels = r.labels := by
  unfold afterReading
  split
  · exact labels_putFile
  · rfl

/-- A file that is read is left in its slot, whatever other names reach it there. -/
theorem inSlot?_afterReading (s : Nat) : (r.afterReading name read).inSlot? s =
    if r.slotOf? name = some s then (r.inSlot? s).map read else r.inSlot? s := by
  cases hf : r.file? name with
  | none =>
    have hread : r.afterReading name read = r := by rw [afterReading, hf]
    rw [hread]
    split
    · rename_i hs
      rw [← file?_of_slotOf? hs, hf]
      rfl
    · rfl
  | some f =>
    have hread : r.afterReading name read = r.putFile name (read f) := by rw [afterReading, hf]
    rw [hread, inSlot?_putFile hf]
    split
    · rename_i hs
      rw [← file?_of_slotOf? hs, hf]
      rfl
    · rfl

end afterReading

/-! ## 3. Refreshing totals -/

theorem refresh_of_file? (h : r.file? name = some f) :
    r.refresh name = { r.putFile name f.opened with
      files := r.files.modify name fun e =>
        { e with totals := f.totals, sessionTotals := f.sessionTotals } } := by
  rw [refresh, h]

theorem refresh_of_none (h : r.file? name = none) : r.refresh name = r := by
  rw [refresh, h]

@[simp] theorem slotOf?_refresh (q : String) : (r.refresh name).slotOf? q = r.slotOf? q := by
  cases h : r.file? name with
  | none => rw [refresh_of_none h]
  | some f =>
    rw [refresh_of_file? h, slotOf?, slotOf?, Table.get?_modify]
    split
    · rw [Option.map_map]
      rfl
    · rfl

@[simp] theorem sessions_refresh : (r.refresh name).sessions = r.sessions := by
  cases h : r.file? name with
  | none => rw [refresh_of_none h]
  | some f => rw [refresh_of_file? h, sessions_putFile]

@[simp] theorem labels_refresh : (r.refresh name).labels = r.labels := by
  cases h : r.file? name with
  | none => rw [refresh_of_none h]
  | some f => rw [refresh_of_file? h, labels_putFile]

@[simp] theorem knownTotals_refresh : (r.refresh name).knownTotals = r.knownTotals := by
  cases h : r.file? name with
  | none => rw [refresh_of_none h]
  | some f => rw [refresh_of_file? h, knownTotals_putFile]

theorem inSlot?_refresh (h : r.file? name = some f) (s : Nat) :
    (r.refresh name).inSlot? s = if r.slotOf? name = some s then some f.opened else r.inSlot? s := by
  rw [refresh_of_file? h]
  exact inSlot?_putFile h s

theorem get?_refresh (h : r.file? name = some f) (q : String) :
    (r.refresh name).files.get? q = if q = name
      then (r.files.get? q).map fun e =>
        { e with totals := f.totals, sessionTotals := f.sessionTotals }
      else r.files.get? q := by
  rw [refresh_of_file? h, Table.get?_modify]

/-! ## 4. Taking a file out -/

theorem remove_of_get? {e : FileEntry} (h : r.files.get? name = some e) :
    r.remove name = (r.inSlot? e.slot,
      { r.setSlot e.slot none with files := r.files.erase name, knownTotals := none }) := by
  rw [remove, h]

theorem remove_of_none (h : r.files.get? name = none) : r.remove name = (none, r) := by
  rw [remove, h]

theorem inSlot?_remove (s : Nat) :
    (r.remove name).2.inSlot? s = if r.slotOf? name = some s then none else r.inSlot? s := by
  cases h : r.files.get? name with
  | none =>
    have hslot : r.slotOf? name = none := by rw [slotOf?, h]; rfl
    rw [remove_of_none h, hslot, if_neg (by simp)]
  | some e =>
    rw [remove_of_get? h, slotOf?_of_get? h]
    have hset : Report.inSlot? { r.setSlot e.slot none with
        files := r.files.erase name, knownTotals := none } s = (r.setSlot e.slot none).inSlot? s := rfl
    simp only [hset, inSlot?_setSlot_none, Option.some.injEq, eq_comm]

theorem get?_remove (q : String) :
    (r.remove name).2.files.get? q = if q = name then none else r.files.get? q := by
  cases h : r.files.get? name with
  | none =>
    rw [remove_of_none h]
    by_cases hq : q = name
    · rw [if_pos hq, hq, h]
    · rw [if_neg hq]
  | some e => rw [remove_of_get? h, Table.get?_erase]

theorem slotOf?_remove (q : String) :
    (r.remove name).2.slotOf? q = if q = name then none else r.slotOf? q := by
  rw [slotOf?, get?_remove]
  split <;> rfl

@[simp] theorem sessions_remove : (r.remove name).2.sessions = r.sessions := by
  rw [remove]
  split <;> rfl

@[simp] theorem labels_remove : (r.remove name).2.labels = r.labels := by
  rw [remove]
  split <;> rfl

end CoverageLedger.Report
