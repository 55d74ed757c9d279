import CoverageLedger.Proofs.Report.Consistency

/-!
# Adding files to a report

`Report.append` joins a file with the one of its name or puts it into a new slot.  In a consistent
report both come to the same for look-ups: under its name stands `placed`, under every other name
what stood there before, and the manifest has the totals of what stands there.
-/

namespace CoverageLedger

/-! ## 1. Joining lines of two files -/

namespace SourceFile

variable {f g : SourceFile} {joined : Bool}

/-- What stands under a number when a line is joined with what may stand there. -/
def joinLine (joined : Bool) (own : Option Line) (line : Line) : Line :=
  match own with
  | some own => own.merge line joined
  | none => line

theorem get?_appendLine (n k : Nat) (line : Line) :
    (f.appendLine n line joined).lines.get? k =
      if k = n then some (joinLine joined (f.lines.get? n) line) else f.lines.get? k := by
  rw [appendLine, lines_edit, Table.get?_insert]
  rfl

/-- Joining a file goes through its lines, each under a number of its own. -/
theorem get?_foldl_appendLine {entries : List (Nat × Line)}
    (hasc : entries.Pairwise fun a b => Precedes a.1 b.1) (n : Nat) :
    (entries.foldl
      (fun f (e : Nat × Line) => if f.ignores e.1 then f else f.appendLine e.1 e.2 joined)
      f).lines.get? n =
      match Table.find n entries with
      | some line => if f.ignores n then f.lines.get? n
        else some (joinLine joined (f.lines.get? n) line)
      | none => f.lines.get? n := by
  induction entries generalizing f with
  | nil => rfl
  | cons e rest ih =>
    obtain ⟨he, hrest⟩ := List.pairwise_cons.1 hasc
    rw [List.foldl_cons, ih hrest]
    -- the ignore rule of the file is never touched, so it can be read off the first file
    have hignores : (if f.ignores e.1 then f else f.appendLine e.1 e.2 joined).ignores n =
        f.ignores n := by
      split <;> rfl
    by_cases hn : n = e.1
    · -- the number does not come again in the rest
      have hout : Table.find n rest = none :=
        Table.find_eq_none.2 fun q hq => by
          rw [hn]
          exact (Precedes.ne (he q hq)).symm
      have hin : Table.find n (e :: rest) = some e.2 := by
        rw [hn]
        simp [Table.find]
      rw [hout, hin]
      simp only [hn]
      split
      · rfl
      · rw [get?_appendLine, if_pos rfl]
    · have hfind : Table.find n (e :: rest) = Table.find n rest := by
        have hne : compare n e.1 ≠ .eq := fun h => hn (eq_of_compare h)
        simp [Table.find, hne]
      have hsame : (if f.ignores e.1 then f else f.appendLine e.1 e.2 joined).lines.get? n =
          f.lines.get? n := by
        split
        · rfl
        · rw [get?_appendLine, if_neg hn]
      rw [hfind, hignores, hsame]

theorem get?_mergeLines (other : Table Nat Line) (n : Nat) :
    (f.mergeLines other joined).lines.get? n =
      match other.get? n with
      | some line => if f.ignores n then f.lines.get? n
        else some (joinLine joined (f.lines.get? n) line)
      | none => f.lines.get? n :=
  get?_foldl_appendLine other.ascending n

theorem ignore_mergeLines (other : Table Nat Line) :
    (f.mergeLines other joined).ignore = f.ignore := by
  rw [mergeLines]
  generalize other.entries = entries
  induction entries generalizing f with
  | nil => rfl
  | cons e rest ih =>
    rw [List.foldl_cons, ih]
    show (if f.ignores e.1 then f else f.appendLine e.1 e.2 joined).ignore = f.ignore
    split <;> rfl

theorem isEmpty_mergeLines (h : f.isEmpty = false) (other : Table Nat Line) :
    (f.mergeLines other joined).isEmpty = false := by
  rw [Bool.eq_false_iff, isEmpty, ne_eq, Table.isEmpty_iff] at h ⊢
  intro hnone
  apply h
  intro n
  have hn := hnone n
  rw [get?_mergeLines] at hn
  split at hn
  · split at hn
    · exact hn
    · cases hn
  · exact hn

theorem merge_of_not_isEmpty (h : g.isEmpty = false) :
    (f.merge g joined).2 = f.mergeLines g.lines joined := by
  rw [merge, h]
  rfl

end SourceFile

/-! ## 2. The report afterwards -/

namespace Report

variable {r : Report} {f : SourceFile} {joined : Bool} {name : String}

theorem append_of_isEmpty (h : f.isEmpty = true) : r.append f joined = (false, r) := by
  rw [append, if_pos h]

theorem fst_append (r : Report) (f : SourceFile) (joined : Bool) :
    (r.append f joined).1 = !f.isEmpty := by
  by_cases hempty : f.isEmpty = true
  · rw [append_of_isEmpty hempty, hempty]
    rfl
  · rw [append, if_neg hempty, Bool.eq_false_iff.2 hempty]
    dsimp only
    split
    · split <;> rfl
    · rfl

/-- The file that stands under the name of an added one. -/
def placed (r : Report) (f : SourceFile) (joined : Bool) : SourceFile :=
  match r.file? f.name with
  | some own => (own.mergeLines f.lines joined).opened
  | none => f.opened

theorem append_of_file? {own : SourceFile} (hne : f.isEmpty = false)
    (hown : r.file? f.name = some own) : (r.append f joined).2 =
      ((r.putFile f.name (own.mergeLines f.lines joined)).refresh f.name).changed := by
  obtain ⟨slot, hslot, hin⟩ := file?_eq_some.1 hown
  have hopened : f.opened.isEmpty = false := hne
  rw [append, hne]
  simp only [Bool.false_eq_true, if_false, SourceFile.name_opened, hslot, hin,
    SourceFile.merge_of_not_isEmpty hopened, SourceFile.lines_opened]
  rw [putFile_of_slotOf? hslot]

theorem append_of_none (hne : f.isEmpty = false) (hslot : r.slotOf? f.name = none) :
    (r.append f joined).2 = { r with
      files := r.files.insert f.name (.ofFile r.slots.length f.opened)
      slots := r.slots ++ [some f.opened]
      knownTotals := none } := by
  rw [append, hne]
  simp only [Bool.false_eq_true, if_false, SourceFile.name_opened, hslot]

/-- In a consistent report a name is in the manifest together with its file. -/
theorem Consistent.slotOf?_of_none (h : r.Consistent) (hf : r.file? name = none) :
    r.slotOf? name = none := by
  cases hs : r.slotOf? name with
  | none => rfl
  | some s =>
    obtain ⟨g, hg⟩ := h.filled hs
    rw [file?_of_slotOf? hs, hg] at hf
    cases hf

theorem inSlot?_append_new (s : Nat) :
    inSlot? { r with
      files := r.files.insert f.name (.ofFile r.slots.length f.opened)
      slots := r.slots ++ [some f.opened]
      knownTotals := none } s = if s = r.slots.length then some f.opened else r.inSlot? s := by
  rw [inSlot?, inSlot?]
  show (r.slots ++ [some f.opened])[s]?.join = _
  by_cases hs : s < r.slots.length
  · rw [List.getElem?_append_left hs, if_neg (by omega)]
  · rw [List.getElem?_append_right (by omega)]
    by_cases heq : s = r.slots.length
    · rw [if_pos heq, heq, Nat.sub_self]
      rfl
    · have hbeyond : r.slots[s]? = none := List.getElem?_eq_none (by omega)
      have hone : [some f.opened][s - r.slots.length]? = none := by
        apply List.getElem?_eq_none
        rw [List.length_singleton]
        omega
      rw [if_neg heq, hbeyond, hone]

/-- **The files afterwards**, name by name. -/
theorem file?_append (h : r.Consistent) (hne : f.isEmpty = false) (q : String) :
    (r.append f joined).2.file? q =
      if q = f.name then some (r.placed f joined) else r.file? q := by
  cases hf : r.file? f.name with
  | some own =>
    have hplaced : r.placed f joined = (own.mergeLines f.lines joined).opened := by
      rw [placed, hf]
    -- apart names have slots of their own, so only this name sees the joined file
    have hput := h.file?_putFile hf (own.mergeLines f.lines joined)
    have hnext := h.putFile hf (own.mergeLines f.lines joined)
    rw [append_of_file? hne hf, file?_changed, hplaced,
      hnext.file?_refresh ((hput f.name).trans (if_pos rfl)), hput]
    by_cases hq : q = f.name
    · rw [if_pos hq, if_pos hq]
    · rw [if_neg hq, if_neg hq, if_neg hq]
  | none =>
    have hslot := h.slotOf?_of_none hf
    have hplaced : r.placed f joined = f.opened := by rw [placed, hf]
    rw [append_of_none hne hslot, hplaced, file?, slotOf?, Table.get?_insert]
    by_cases hq : q = f.name
    · rw [if_pos hq, if_pos hq, Option.map_some, Option.bind_some, inSlot?_append_new]
      exact if_pos rfl
    · rw [if_neg hq, if_neg hq, file?, slotOf?]
      cases he : r.files.get? q with
      | none => rfl
      | some e =>
        -- a slot that was named before is not the new one
        obtain ⟨g, hg⟩ := h.filled (slotOf?_of_get? he)
        have hlt := lt_length_of_inSlot? hg
        rw [Option.map_some, Option.bind_some, Option.bind_some, inSlot?_append_new,
          if_neg (by omega)]

/-- Every file afterwards is one from before or the one that was placed. -/
theorem file?_append_cases (h : r.Consistent) {q : String} {found : SourceFile}
    (hfound : (r.append f joined).2.file? q = some found) :
    r.file? q = some found ∨ f.isEmpty = false ∧ found = r.placed f joined := by
  by_cases hempty : f.isEmpty = true
  · rw [append_of_isEmpty hempty] at hfound
    exact .inl hfound
  · have hne : f.isEmpty = false := Bool.eq_false_iff.2 hempty
    rw [file?_append h hne] at hfound
    split at hfound
    · exact .inr ⟨hne, (Option.some.inj hfound).symm⟩
    · exact .inl hfound

/-- The manifest afterwards, name by name. -/
theorem get?_append (h : r.Consistent) (hne : f.isEmpty = false) (joined : Bool) (q : String) :
    ∃ diffTotals, (r.append f joined).2.files.get? q =
      if q = f.name then some
        { slot := (r.slotOf? f.name).getD r.slots.length
          totals := (r.placed f joined).totals
          sessionTotals := (r.placed f joined).sessionTotals
          diffTotals }
      else r.files.get? q := by
  cases hf : r.file? f.name with
  | some own =>
    obtain ⟨slot, hslot, hin⟩ := file?_eq_some.1 hf
    obtain ⟨e, he, rfl⟩ := slotOf?_eq_some.1 hslot
    have hplaced : r.placed f joined = (own.mergeLines f.lines joined).opened := by
      rw [placed, hf]
    have hput := (h.file?_putFile hf (own.mergeLines f.lines joined) f.name).trans (if_pos rfl)
    -- the totals of a diff are the one thing that refreshing leaves alone
    refine ⟨e.diffTotals, ?_⟩
    rw [append_of_file? hne hf, files_changed, get?_refresh hput, files_putFile, hslot, hplaced]
    by_cases hq : q = f.name
    · rw [if_pos hq, if_pos hq, hq, he]
      rfl
    · rw [if_neg hq, if_neg hq]
  | none =>
    have hslot := h.slotOf?_of_none hf
    have hplaced : r.placed f joined = f.opened := by rw [placed, hf]
    refine ⟨none, ?_⟩
    rw [append_of_none hne hslot, hplaced, hslot, Table.get?_insert]
    rfl

theorem sessions_append : (r.append f joined).2.sessions = r.sessions := by
  rw [append]
  split
  · rfl
  · dsimp only
    split
    · split
      · exact sessions_refresh
      · exact sessions_refresh
    · rfl

/-- A file under a name that was free, in a slot beyond all others. -/
theorem Consistent.newSlot (h : r.Consistent) (hfree : r.slotOf? name = none) {t : Report}
    (hslot : ∀ q, t.slotOf? q = if q = name then some r.slots.length else r.slotOf? q)
    (hfile : ∀ s, t.inSlot? s = if s = r.slots.length then some f else r.inSlot? s) :
    t.Consistent := by
  -- the new slot lies beyond all slots that were named before
  have hold {q : String} {s : Nat} (hs : r.slotOf? q = some s) : s < r.slots.length := by
    obtain ⟨g, hg⟩ := h.filled hs
    exact lt_length_of_inSlot? hg
  refine ⟨fun {q s} hs => ?_, fun {a b s} ha hb => ?_, fun {s g} hg => ?_⟩
  · rw [hslot] at hs
    rw [hfile]
    split at hs
    · exact ⟨f, if_pos (Option.some.inj hs).symm⟩
    · have hlt := hold hs
      rw [if_neg (by omega)]
      exact h.filled hs
  · rw [hslot] at ha hb
    split at ha
    · split at hb
      · rename_i ha' hb'
        rw [ha', hb']
      · have hlt := hold hb
        have heq := Option.some.inj ha
        omega
    · split at hb
      · have hlt := hold ha
        have heq := Option.some.inj hb
        omega
      · exact h.apart ha hb
  · rw [hfile] at hg
    split at hg
    · rename_i hs
      exact ⟨name, by rw [hslot, if_pos rfl, hs]⟩
    · obtain ⟨q, hq⟩ := h.used hg
      have hother : q ≠ name := by
        rintro rfl
        rw [hfree] at hq
        cases hq
      exact ⟨q, by rw [hslot, if_neg hother, hq]⟩

theorem Consistent.append (h : r.Consistent) (f : SourceFile) (joined : Bool) :
    (r.append f joined).2.Consistent := by
  by_cases hempty : f.isEmpty = true
  · rw [append_of_isEmpty hempty]
    exact h
  · have hne : f.isEmpty = false := Bool.eq_false_iff.2 hempty
    cases hf : r.file? f.name with
    | some own =>
      rw [append_of_file? hne hf]
      exact ((h.putFile hf _).refresh f.name).changed
    | none =>
      have hfree := h.slotOf?_of_none hf
      rw [append_of_none hne hfree]
      refine h.newSlot hfree (fun q => ?_) inSlot?_append_new
      rw [slotOf?, Table.get?_insert]
      split <;> rfl

theorem Counted.append (hc : r.Counted) (h : r.Consistent) (f : SourceFile) (joined : Bool) :
    (r.append f joined).2.Counted := by
  by_cases hempty : f.isEmpty = true
  · rw [append_of_isEmpty hempty]
    exact hc
  · have hne : f.isEmpty = false := Bool.eq_false_iff.2 hempty
    intro q e g he hg
    obtain ⟨diffTotals, hget⟩ := get?_append h hne joined q
    rw [hget] at he
    rw [file?_append h hne] at hg
    by_cases hq : q = f.name
    · rw [if_pos hq] at he hg
      rw [← Option.some.inj he, ← Option.some.inj hg]
    · rw [if_neg hq] at he hg
      exact hc q e g he hg

/-! ## 3. Line by line -/

/-- What stands under a number in the file of a name. -/
def lineAt? (r : Report) (name : String) (n : Nat) : Option Line :=
  (r.file? name).bind fun f => f.lines.get? n

/-- Adding a file joins each of its lines with what stands there, unless a rule refuses lines. -/
theorem lineAt?_append (h : r.Consistent)
    (hignore : ∀ own, r.file? f.name = some own → own.ignore = none) (q : String) (n : Nat) :
    (r.append f joined).2.lineAt? q n =
      if q = f.name then
        match f.lines.get? n with
        | some l => some (SourceFile.joinLine joined (r.lineAt? q n) l)
        | none => r.lineAt? q n
      else r.lineAt? q n := by
  by_cases hempty : f.isEmpty = true
  · rw [append_of_isEmpty hempty, (f.lines.isEmpty_iff).1 hempty n, ite_self]
  · rw [lineAt?, file?_append h (Bool.eq_false_iff.2 hempty)]
    by_cases hq : q = f.name
    · rw [if_pos hq, if_pos hq, Option.bind_some, lineAt?, hq, placed]
      cases hown : r.file? f.name with
      | none =>
        simp only [SourceFile.lines_opened, Option.bind_none]
        cases f.lines.get? n <;> rfl
      | some own =>
        have hignores : own.ignores n = false := by rw [SourceFile.ignores, hignore own hown]
        simp only [SourceFile.lines_opened, SourceFile.get?_mergeLines, hignores, Bool.false_eq_true,
          if_false, Option.bind_some]
    · rw [if_neg hq, if_neg hq, lineAt?]

end Report

end CoverageLedger
