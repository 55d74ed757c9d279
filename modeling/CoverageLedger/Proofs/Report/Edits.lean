import CoverageLedger.Proofs.Report.Sound

/-!
# Edits of a report in order

Renaming, taking sessions and labels out, renumbering a session, following a diff and closing up the
slots: each keeps a report sound.  Passes over several names are folds of a step for one name.
-/

namespace CoverageLedger

namespace Report

variable {r : Report} {name old new : String} {e : FileEntry} {f : SourceFile}

/-! ## 1. Renaming -/

/-- The report in which a file stands under a free name in place of its old one. -/
def moved (r : Report) (old new : String) (e : FileEntry) (f : SourceFile) : Report :=
  { r.putFile old { f with name := new } with
    files := (r.files.erase old).insert new e
    knownTotals := none }

theorem get?_moved (q : String) :
    (r.moved old new e f).files.get? q =
      if q = new then some e else if q = old then none else r.files.get? q := by
  show ((r.files.erase old).insert new e).get? q = _
  rw [Table.get?_insert, Table.get?_erase]

theorem slotOf?_moved (q : String) : (r.moved old new e f).slotOf? q =
    if q = new then some e.slot else if q = old then none else r.slotOf? q := by
  rw [slotOf?, get?_moved]
  split
  · rfl
  · split <;> rfl

theorem inSlot?_moved (he : r.files.get? old = some e) (hf : r.file? old = some f) (s : Nat) :
    (r.moved old new e f).inSlot? s =
      if s = e.slot then some { f with name := new } else r.inSlot? s := by
  have hput : (r.moved old new e f).inSlot? s =
      (r.putFile old { f with name := new }).inSlot? s := rfl
  rw [hput, inSlot?_putFile hf, slotOf?_of_get? he]
  simp only [Option.some.injEq, eq_comm]

theorem file?_moved (h : r.Consistent) (he : r.files.get? old = some e)
    (hf : r.file? old = some f) (q : String) : (r.moved old new e f).file? q =
      if q = new then some { f with name := new } else if q = old then none else r.file? q := by
  rw [file?, slotOf?_moved]
  by_cases hq : q = new
  · rw [if_pos hq, if_pos hq, Option.bind_some, inSlot?_moved he hf, if_pos rfl]
  · rw [if_neg hq, if_neg hq]
    by_cases hqo : q = old
    · rw [if_pos hqo, if_pos hqo]
      rfl
    · rw [if_neg hqo, if_neg hqo, file?]
      cases hs : r.slotOf? q with
      | none => rfl
      | some s =>
        have hother : s ≠ e.slot := by
          rintro rfl
          exact hqo (h.apart hs (slotOf?_of_get? he))
        rw [Option.bind_some, Option.bind_some, inSlot?_moved he hf, if_neg hother]

theorem Consistent.moved (h : r.Consistent) (hnew : r.files.get? new = none)
    (he : r.files.get? old = some e) (hf : r.file? old = some f) :
    (r.moved old new e f).Consistent where
  filled := by
    intro q s hs
    rw [inSlot?_moved he hf]
    split
    · exact ⟨_, rfl⟩
    · rename_i hne
      rw [slotOf?_moved] at hs
      split at hs
      · exact absurd (Option.some.inj hs).symm hne
      · split at hs
        · cases hs
        · exact h.filled hs
  apart := by
    -- before the move the slot was named by the old name alone
    have hold {q : String} (hq : r.slotOf? q = some e.slot) : q = old :=
      h.apart hq (slotOf?_of_get? he)
    intro a b s ha hb
    rw [slotOf?_moved] at ha hb
    split at ha
    · obtain rfl := Option.some.inj ha
      split at hb
      · rename_i ha' hb'
        rw [ha', hb']
      · split at hb
        · cases hb
        · rename_i hb'
          exact absurd (hold hb) hb'
    · split at ha
      · cases ha
      · rename_i ha'
        split at hb
        · obtain rfl := Option.some.inj hb
          exact absurd (hold ha) ha'
        · split at hb
          · cases hb
          · exact h.apart ha hb
  used := by
    intro s g hg
    by_cases hs : s = e.slot
    · exact ⟨new, by rw [slotOf?_moved, if_pos rfl, hs]⟩
    · rw [inSlot?_moved he hf, if_neg hs] at hg
      obtain ⟨q, hq⟩ := h.used hg
      have hqn : q ≠ new := by
        rintro rfl
        rw [slotOf?, hnew] at hq
        cases hq
      have hqo : q ≠ old := by
        rintro rfl
        rw [slotOf?_of_get? he] at hq
        exact hs (Option.some.inj hq).symm
      exact ⟨q, by rw [slotOf?_moved, if_neg hqn, if_neg hqo, hq]⟩

theorem Sound.moved (h : r.Sound) (hnew : r.files.get? new = none)
    (he : r.files.get? old = some e) (hf : r.file? old = some f) :
    (r.moved old new e f).Sound := by
  refine ⟨h.consistent.moved hnew he hf, fun q e' g he' hg => ?_⟩
  rw [get?_moved] at he'
  rw [file?_moved h.consistent he hf] at hg
  by_cases hq : q = new
  · rw [if_pos hq] at he' hg
    obtain rfl := Option.some.inj he'
    obtain rfl := Option.some.inj hg
    have hsettled := h.settled old _ f he hf
    exact ⟨hq.symm, hsettled.parsed, hsettled.sound.withName new, hsettled.totals,
      hsettled.bounded⟩
  · rw [if_neg hq] at he' hg
    split at he'
    · cases he'
    · rename_i hqo
      rw [if_neg hqo] at hg
      exact h.settled q e' g he' hg

/-- A file gets another name after the one of that name went. -/
theorem rename_of_get? (h : r.Consistent) (hne : old ≠ new) (he : r.files.get? old = some e) :
    (r.remove new).2.files.get? old = some e ∧ ∃ f, (r.remove new).2.file? old = some f ∧
      (r.rename old new).2 = (r.remove new).2.moved old new e f := by
  have hleft : (r.remove new).2.files.get? old = some e := by rw [get?_remove, if_neg hne, he]
  obtain ⟨f, hf⟩ := (h.remove new).file?_of_get? hleft
  have hold : r.files.contains old = true :=
    (Table.contains_iff _).2 ((Table.mem_keys_iff _).2 ⟨e, he⟩)
  refine ⟨hleft, f, hf, ?_⟩
  rw [rename, if_neg hne]
  simp only [hold, Bool.not_true, Bool.false_eq_true, if_false, hleft, afterReading, hf,
    files_putFile]
  rfl

/-- What a renaming does: nothing, or a file is moved. -/
theorem rename_cases (h : r.Consistent) (old new : String) :
    (r.rename old new).2 = r ∨ ∃ e f, (r.remove new).2.files.get? new = none ∧
      (r.remove new).2.files.get? old = some e ∧ (r.remove new).2.file? old = some f ∧
      (r.rename old new).2 = (r.remove new).2.moved old new e f := by
  by_cases heq : old = new
  · exact .inl (by rw [rename, if_pos heq])
  · cases hold : r.files.contains old with
    | false => exact .inl (by rw [rename, if_neg heq, hold]; rfl)
    | true =>
      obtain ⟨e, he⟩ := (Table.mem_keys_iff _).1 ((Table.contains_iff _).1 hold)
      obtain ⟨hleft, f, hf, hmoved⟩ := rename_of_get? h heq he
      exact .inr ⟨e, f, by rw [get?_remove, if_pos rfl], hleft, hf, hmoved⟩

theorem Sound.rename (h : r.Sound) (old new : String) : (r.rename old new).2.Sound := by
  rcases rename_cases h.consistent old new with heq | ⟨e, f, hnew, he, hf, heq⟩
  · rw [heq]
    exact h
  · rw [heq]
    exact (h.remove new).moved hnew he hf

/-! ## 2. Sessions and labels -/

theorem Sound.deleteSessions (h : r.Sound) (ids : List Nat) : (r.deleteSessions ids).Sound := by
  by_cases hids : ids = []
  · rw [hids]
    exact h
  · refine ⟨h.consistent.deleteSessions ids, fun q e' g he' hg => ?_⟩
    rw [file?_deleteSessions hids, Option.bind_eq_some_iff] at hg
    obtain ⟨f, hf, hkept⟩ := hg
    split at hkept
    · cases hkept
    · rename_i hstays
      obtain rfl := Option.some.inj hkept
      -- a file that stays is not emptied, so its entry is the rewritten one
      have hcounted := h.counted.deleteSessions h.consistent ids q e' _ he' (by
        rw [file?_deleteSessions hids, hf, Option.bind_some, if_neg hstays])
      rw [get?_deleteSessions h.consistent hids hf, if_neg hstays, Option.map_eq_some_iff] at he'
      obtain ⟨e, he, rfl⟩ := he'
      have hsettled := h.settled q e f he hf
      have hbounded : (entryWithout ids f e).sessionTotals.Bounded := by
        rw [entryWithout]
        split
        · exact SourceFile.bounded_sessionTotals _
        · exact hsettled.bounded
      refine ⟨?_, ?_, hsettled.sound.withoutSessions ids, hcounted, hbounded.foldl_erase ids⟩
      · rw [SourceFile.withoutSessions, afterSessionIds_of_isParsed hsettled.parsed]
        split <;> exact hsettled.name
      · rw [SourceFile.withoutSessions, afterSessionIds_of_isParsed hsettled.parsed]
        split
        · rfl
        · exact hsettled.parsed

theorem snd_remove_putFile (hf : r.file? name = some f) (g : SourceFile) :
    ((r.putFile name g).remove name).2 = (r.remove name).2 := by
  obtain ⟨slot, hslot, -⟩ := file?_eq_some.1 hf
  obtain ⟨e, he, rfl⟩ := slotOf?_eq_some.1 hslot
  have hput : (r.putFile name g).files.get? name = some e := by rw [files_putFile, he]
  rw [remove_of_get? he, remove_of_get? hput, putFile_of_slotOf? hslot]
  simp only [setSlot, List.set_set]

/-- What taking labels out of one file does in a sound report: the file is left alone, taken out, or
written anew. -/
theorem deleteLabelsIn_cases (h : r.Sound) (ids labels : List Nat) (name : String) :
    deleteLabelsIn ids labels r name = r ∨ deleteLabelsIn ids labels r name = r.changed ∨
      deleteLabelsIn ids labels r name = (r.changed.remove name).2 ∨
      ∃ f, r.file? name = some f ∧ deleteLabelsIn ids labels r name =
        (r.changed.putFile name (f.deleteLabels ids labels)).refresh name := by
  rw [deleteLabelsIn]
  split
  · exact .inl rfl
  · right
    simp only [file?_changed]
    cases hf : r.file? name with
    | none => exact .inl rfl
    | some f =>
      obtain ⟨e, hsettled⟩ := h.settled_file hf
      simp only [afterSessionIds_of_isParsed hsettled.parsed]
      split
      · split
        · exact .inr (.inl (snd_remove_putFile (r := r.changed) hf _))
        · exact .inr (.inr ⟨f, rfl, rfl⟩)
      · exact .inl (putFile_self hf)

theorem Sound.deleteLabelsIn (h : r.Sound) (ids labels : List Nat) (name : String) :
    (deleteLabelsIn ids labels r name).Sound := by
  rcases deleteLabelsIn_cases h ids labels name with heq | heq | heq | ⟨f, hf, heq⟩
  · rw [heq]
    exact h
  · rw [heq]
    exact h.changed
  · rw [heq]
    exact h.changed.remove name
  · obtain ⟨e, hsettled⟩ := h.settled_file hf
    rw [heq]
    exact h.changed.rewrite hf hsettled.name (hsettled.sound.deleteLabels ids labels)

theorem Sound.deleteLabels (h : r.Sound) (ids labels : List Nat) :
    (r.deleteLabels ids labels).Sound := by
  rw [Report.deleteLabels]
  split
  · exact h
  · apply Sound.changed
    generalize r.names = names
    induction names generalizing r with
    | nil => exact h
    | cons name rest ih => exact ih (h.deleteLabelsIn ids labels name)

/-- Renumbering a session moves no reading, so that the totals stay. -/
theorem totals_changeSessionId (old new : Nat) : (f.changeSessionId old new).totals = f.totals := by
  rw [SourceFile.changeSessionId]
  split
  · rw [SourceFile.totals, SourceFile.totals, SourceFile.lines_edit]
    have hvalues : (f.lines.map fun _ l => l.withSessionId old new).values =
        f.lines.values.map (Line.withSessionId old new) := by
      rw [Table.values, Table.values, Table.map, List.map_map, List.map_map]
      rfl
    rw [hvalues]
    simp only [Totals.ofLines, Totals.countOutcome, Totals.countKind, List.countP_map, List.map_map,
      List.filterMap_map]
    rfl
  · rw [SourceFile.totals, SourceFile.totals, SourceFile.lines_afterSessionIds]

theorem isParsed_changeSessionId (h : f.isParsed = true) (old new : Nat) :
    (f.changeSessionId old new).isParsed = true ∧ (f.changeSessionId old new).name = f.name := by
  rw [SourceFile.changeSessionId, afterSessionIds_of_isParsed h]
  split
  · exact ⟨rfl, rfl⟩
  · exact ⟨h, rfl⟩

/-- The entries of one name get other totals by session, and every slot number stays. -/
theorem Sound.withSessionTotals (h : r.Consistent) (name : String)
    (change : SessionTotals → SessionTotals)
    (hsettled : ∀ q e f, r.files.get? q = some e → r.file? q = some f →
      Settled q (if q = name then { e with sessionTotals := change e.sessionTotals } else e) f) :
    Sound { r with files := r.files.modify name fun e =>
      { e with sessionTotals := change e.sessionTotals } } := by
  have hslot (q : String) : slotOf? { r with files := r.files.modify name fun e =>
      { e with sessionTotals := change e.sessionTotals } } q = r.slotOf? q := by
    rw [slotOf?, slotOf?, Table.get?_modify]
    split
    · rw [Option.map_map]
      rfl
    · rfl
  -- slots and files stay where they are, and only one entry changes
  refine ⟨h.congr hslot fun _ => rfl, fun q e f he hf => ?_⟩
  rw [file?_congr (hslot q) fun _ => rfl] at hf
  rw [Table.get?_modify] at he
  by_cases hq : q = name
  · rw [if_pos hq, Option.map_eq_some_iff] at he
    obtain ⟨own, hown, rfl⟩ := he
    have hone := hsettled q own f hown hf
    rw [if_pos hq] at hone
    exact hone
  · rw [if_neg hq] at he
    have hone := hsettled q e f he hf
    rw [if_neg hq] at hone
    exact hone

theorem Sound.changeSessionIn (h : r.Sound) (old new : Nat) (name : String) :
    (changeSessionIn old new r name).Sound := by
  rw [Report.changeSessionIn, afterReading, file?_changed]
  cases hf : r.file? name with
  | none =>
    refine Sound.withSessionTotals h.changed.consistent name (·.changeId old new) fun q e g he hg => ?_
    have hq : q ≠ name := by
      rintro rfl
      rw [file?_changed, hf] at hg
      cases hg
    rw [if_neg hq]
    exact h.settled q e g he hg
  | some f =>
    have hput := h.changed.consistent.file?_putFile hf (f.changeSessionId old new)
    refine Sound.withSessionTotals (h.changed.consistent.putFile hf _) name (·.changeId old new)
      fun q e g he hg => ?_
    rw [files_putFile] at he
    rw [hput] at hg
    by_cases hq : q = name
    · rw [if_pos hq] at hg ⊢
      subst hq
      obtain rfl := Option.some.inj hg
      have hsettled := h.settled q e f he hf
      obtain ⟨hparsed, hname⟩ := isParsed_changeSessionId hsettled.parsed old new
      exact ⟨hname.trans hsettled.name, hparsed, hsettled.sound.changeSessionId old new,
        hsettled.totals.trans (totals_changeSessionId old new).symm,
        hsettled.bounded.changeId old new⟩
    · rw [if_neg hq] at hg ⊢
      exact h.settled q e g he hg

theorem Sound.changeSession {r' : Report} (h : r.Sound) {old new : Nat}
    (hchange : r.changeSession old new = .ok r') : r'.Sound := by
  rw [Report.changeSession] at hchange
  split at hchange
  · cases hchange
  · split at hchange
    · cases hchange
      exact h
    · split at hchange
      · cases hchange
      · cases hchange
        apply Sound.changed
        rename_i s _ _ _
        have hstart : Sound { r with sessions := (r.sessions.erase old).insert new s } :=
          h.of_eq rfl rfl
        -- the session map is rewritten first; the files follow one after the other
        generalize Report.mk r.files r.slots ((r.sessions.erase old).insert new s) r.labels
          r.knownTotals = start at hstart ⊢
        generalize start.names = names
        induction names generalizing start with
        | nil => exact hstart
        | cons name rest ih => exact ih _ (hstart.changeSessionIn old new name)

/-! ## 3. Following a diff -/

/-- What following a diff does to one file. -/
theorem shiftFile_cases (r : Report) (path : String) (f : DiffFile) (direction : Direction) :
    r.shiftFile path f direction = r ∨ r.shiftFile path f direction = r.changed ∨
      f.kind = .modified ∧ ∃ file, r.file? path = some file ∧ r.shiftFile path f direction =
        (r.changed.putFile path (file.shift f.hunks direction).2).refresh path := by
  rw [shiftFile]
  split
  · exact .inl rfl
  · rename_i hkind
    split
    · exact .inl rfl
    · right
      simp only [file?_changed]
      cases hf : r.file? path with
      | none => exact .inl rfl
      | some file =>
        dsimp only
        -- nothing is stored back unless the shift succeeds
        split
        · rename_i shifted heq
          refine .inr ⟨Decidable.not_not.1 (not_or.1 hkind).1, file, rfl, ?_⟩
          rw [heq]
        · exact .inl rfl

theorem name_shift (hunks : List Hunk) (direction : Direction) :
    (f.shift hunks direction).2.name = f.name := by
  rw [SourceFile.shift]
  split <;> rfl

theorem Sound.shiftFile (h : r.Sound) {path : String} {f : DiffFile} {direction : Direction}
    (hstays : f.kind = .modified → ∀ file, r.file? path = some file →
      file.StaysNumbered f.hunks direction) : (r.shiftFile path f direction).Sound := by
  rcases shiftFile_cases r path f direction with heq | heq | ⟨hkind, file, hfile, heq⟩
  · rw [heq]
    exact h
  · rw [heq]
    exact h.changed
  · obtain ⟨e, hsettled⟩ := h.settled_file hfile
    rw [heq]
    exact h.changed.rewrite hfile ((name_shift _ _).trans hsettled.name)
      (hsettled.sound.shift (hstays hkind file hfile))

theorem file?_shiftFile_of_ne (h : r.Consistent) {path q : String} (hq : q ≠ path) (f : DiffFile)
    (direction : Direction) : (r.shiftFile path f direction).file? q = r.file? q := by
  rcases shiftFile_cases r path f direction with heq | heq | ⟨-, file, hfile, heq⟩
  · rw [heq]
  · rw [heq, file?_changed]
  · have hput := h.changed.file?_putFile hfile (file.shift f.hunks direction).2
    rw [heq, (h.changed.putFile hfile _).file?_refresh ((hput path).trans (if_pos rfl)), if_neg hq,
      hput, if_neg hq, file?_changed]

/-- No line of a file that a diff modifies goes to number zero. -/
def StaysNumbered (r : Report) (d : Diff) (direction : Direction) : Prop :=
  ∀ path f file, d.files.get? path = some f → f.kind = .modified → r.file? path = some file →
    file.StaysNumbered f.hunks direction

theorem Sound.shift (h : r.Sound) {d : Diff} {direction : Direction}
    (hstays : r.StaysNumbered d direction) : (r.shift d direction).Sound := by
  have hentries : ∀ e ∈ d.files.entries, e.2.kind = .modified → ∀ file, r.file? e.1 = some file →
      file.StaysNumbered e.2.hunks direction := fun e he hkind file hfile =>
    hstays e.1 e.2 file ((Table.get?_eq_some_iff _).2 he) hkind hfile
  have hasc := d.files.ascending
  clear hstays
  rw [Report.shift]
  generalize d.files.entries = entries at hentries hasc
  induction entries generalizing r with
  | nil => exact h
  | cons e rest ih =>
    obtain ⟨hfirst, hrest⟩ := List.pairwise_cons.1 hasc
    -- each path comes once, so that its file is still the one of the start
    refine ih (h.shiftFile (hentries e List.mem_cons_self)) (fun e' he' hkind file hfile => ?_) hrest
    rw [file?_shiftFile_of_ne h.consistent (Precedes.ne (hfirst e' he')).symm] at hfile
    exact hentries e' (List.mem_cons_of_mem e he') hkind file hfile

/-- Looking lines up changes nothing once they are read. -/
theorem Sound.afterDiff (h : r.Sound) (d : Diff) : r.afterDiff d = r := by
  rw [Report.afterDiff]
  generalize d.files.entries = entries
  induction entries with
  | nil => rfl
  | cons entry rest ih =>
    obtain ⟨path, change⟩ := entry
    -- looking lines up can only open a file, and every file is open already
    have hstep : (if change.contributes then
        r.afterReading path fun file => file.afterLines change.addedLines else r) = r := by
      split
      · rw [afterReading]
        cases hf : r.file? path with
        | none => rfl
        | some f =>
          obtain ⟨e, hsettled⟩ := h.settled_file hf
          have hread : f.afterLines change.addedLines = f := by
            rw [SourceFile.afterLines, opened_of_isParsed hsettled.parsed, ite_self]
          dsimp only
          rw [hread, putFile_self hf]
      · rfl
    rw [List.foldl_cons]
    dsimp only
    rw [hstep, ih]

theorem slotOf?_withDiffTotals (result : DiffTotals) (q : String) :
    (r.withDiffTotals result).slotOf? q = r.slotOf? q := by
  rw [slotOf?, withDiffTotals, Table.get?_map, Option.map_map]
  refine congrArg (Option.map · (r.files.get? q)) (funext fun e => ?_)
  dsimp only [Function.comp_apply]
  split <;> rfl

theorem file?_withDiffTotals (result : DiffTotals) (q : String) :
    (r.withDiffTotals result).file? q = r.file? q :=
  file?_congr (slotOf?_withDiffTotals result q) fun _ => rfl

theorem Sound.withDiffTotals (h : r.Sound) (result : DiffTotals) :
    (r.withDiffTotals result).Sound := by
  refine ⟨h.consistent.congr (slotOf?_withDiffTotals result) fun _ => rfl, fun q e f he hf => ?_⟩
  rw [file?_withDiffTotals] at hf
  rw [Report.withDiffTotals, Table.get?_map, Option.map_eq_some_iff] at he
  obtain ⟨own, hown, rfl⟩ := he
  have hsettled := h.settled q own f hown hf
  split
  · exact ⟨hsettled.name, hsettled.parsed, hsettled.sound, hsettled.totals, hsettled.bounded⟩
  · exact hsettled

theorem applyDiff_cases (h : r.Sound) (d : Diff) : (r.applyDiff d).2.2 = r ∨
    (r.applyDiff d).2.2 = r.withDiffTotals (r.diffTotals d) := by
  rw [applyDiff]
  split
  · exact .inl rfl
  · right
    simp only [calculateDiff, h.afterDiff d]

theorem Sound.applyDiff (h : r.Sound) (d : Diff) : (r.applyDiff d).2.2.Sound := by
  rcases applyDiff_cases h d with heq | heq
  · rw [heq]
    exact h
  · rw [heq]
    exact h.withDiffTotals _

/-! ## 4. Closing up the slots -/

theorem filter_isSome_slots (slots : List (Option SourceFile)) (n : Nat) :
    slots.filter Option.isSome = (occupiedFrom n slots).map fun k => (slots[k - n]?).join := by
  induction slots generalizing n with
  | nil => rfl
  | cons o rest ih =>
    have hrest : ((occupiedFrom (n + 1) rest).map fun k => ((o :: rest)[k - n]?).join) =
        (occupiedFrom (n + 1) rest).map fun k => (rest[k - (n + 1)]?).join := by
      refine List.map_congr_left fun k hk => ?_
      have hle := (mem_occupiedFrom.1 hk).1
      have hsucc : k - n = (k - (n + 1)) + 1 := by omega
      rw [hsucc, List.getElem?_cons_succ]
    cases o with
    | none =>
      rw [List.filter_cons_of_neg (by decide), occupiedFrom, hrest, ← ih]
    | some f =>
      rw [List.filter_cons_of_pos rfl, occupiedFrom, List.map_cons, hrest, ← ih, Nat.sub_self]
      rfl

theorem repack_of_consistent (h : r.Consistent) : r.repack.2 = { r with
    files := r.files.map fun _ e => { e with slot := (occupiedFrom 0 r.slots).idxOf e.slot }
    slots := r.slots.filter Option.isSome } := by
  rw [repack, if_pos (isConsistent_iff.2 h)]

/-- The slots afterwards are those that were occupied, in their order. -/
theorem inSlot?_repack (h : r.Consistent) (s : Nat) :
    r.repack.2.inSlot? s = ((occupiedFrom 0 r.slots)[s]?).bind r.inSlot? := by
  rw [repack_of_consistent h, inSlot?]
  show ((r.slots.filter Option.isSome)[s]?).join = _
  rw [filter_isSome_slots r.slots 0, List.getElem?_map]
  cases (occupiedFrom 0 r.slots)[s]? with
  | none => rfl
  | some k => rfl

theorem slotOf?_repack (h : r.Consistent) (q : String) :
    r.repack.2.slotOf? q = (r.slotOf? q).map (occupiedFrom 0 r.slots).idxOf := by
  rw [repack_of_consistent h, slotOf?, slotOf?]
  show ((r.files.map _).get? q).map _ = _
  rw [Table.get?_map, Option.map_map, Option.map_map]
  rfl

/-- The new place of a slot that a name has holds its file. -/
theorem inSlot?_repack_idxOf (h : r.Consistent) {q : String} {s : Nat} (hs : r.slotOf? q = some s) :
    r.repack.2.inSlot? ((occupiedFrom 0 r.slots).idxOf s) = r.inSlot? s := by
  have hmem : s ∈ occupiedFrom 0 r.slots := mem_occupied_iff.2 (h.filled hs)
  rw [inSlot?_repack h, List.getElem?_eq_getElem (List.idxOf_lt_length_of_mem hmem),
    List.getElem_idxOf, Option.bind_some]

theorem file?_repack (h : r.Consistent) (q : String) : r.repack.2.file? q = r.file? q := by
  rw [file?, slotOf?_repack h, file?]
  cases hs : r.slotOf? q with
  | none => rfl
  | some s => exact inSlot?_repack_idxOf h hs

theorem Consistent.repack (h : r.Consistent) : r.repack.2.Consistent where
  filled := by
    intro q s' hs'
    rw [slotOf?_repack h, Option.map_eq_some_iff] at hs'
    obtain ⟨s, hs, rfl⟩ := hs'
    rw [inSlot?_repack_idxOf h hs]
    exact h.filled hs
  apart := by
    intro a b s' ha hb
    rw [slotOf?_repack h, Option.map_eq_some_iff] at ha hb
    obtain ⟨s, hs, rfl⟩ := ha
    obtain ⟨t, ht, heq⟩ := hb
    have hmem : s ∈ occupiedFrom 0 r.slots := mem_occupied_iff.2 (h.filled hs)
    -- a slot is found at one place of the list of occupied slots only
    obtain rfl := (List.idxOf_inj hmem).1 heq.symm
    exact h.apart hs ht
  used := by
    intro s' f hf
    rw [inSlot?_repack h, Option.bind_eq_some_iff] at hf
    obtain ⟨s, hs, hf⟩ := hf
    obtain ⟨q, hq⟩ := h.used hf
    obtain ⟨hlt, rfl⟩ := List.getElem?_eq_some_iff.1 hs
    have hnodup : (occupiedFrom 0 r.slots).Nodup :=
      (occupiedFrom_ascending r.slots 0).imp Precedes.ne
    exact ⟨q, by rw [slotOf?_repack h, hq, Option.map_some, hnodup.idxOf_getElem]⟩

theorem Sound.repack (h : r.Sound) : r.repack.2.Sound := by
  refine ⟨h.consistent.repack, fun q e f he hf => ?_⟩
  rw [file?_repack h.consistent] at hf
  rw [repack_of_consistent h.consistent, Table.get?_map, Option.map_eq_some_iff] at he
  obtain ⟨own, hown, rfl⟩ := he
  have hsettled := h.settled q own f hown hf
  exact ⟨hsettled.name, hsettled.parsed, hsettled.sound, hsettled.totals, hsettled.bounded⟩

end Report

end CoverageLedger
